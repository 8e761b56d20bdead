import AdvancedCProjects.Base.Heap
import AdvancedCProjects.Base.Lists
import AdvancedCProjects.Copier.Hashtable

/-!
# The table of file types in memory (program.c:52-157, 597-608)

The functions of the table with their pointers: `malloc` and `strdup` return
addresses that are free, a dangling or null pointer is a fault, and so is a loop
that has not ended after `fuel` rounds.
-/

namespace AdvancedCProjects.Copier
open Base

structure Node where
  key : ℕ
  value : ℤ
  next : ℕ

/-- `struct Hashtable`. -/
structure TableRecord where
  size : ℕ
  count : ℤ
  buckets : ℕ

/-- The blocks of the program by their types; a text stands without its terminator. -/
structure Memory where
  tables : Heap TableRecord
  arrays : Heap (List ℕ)
  nodes : Heap Node
  texts : Heap Bytes

/-- A call of `insert`, with what `malloc` and `strdup` return if it needs them. -/
structure InsertCall where
  key : Bytes
  value : ℤ
  node : ℕ
  text : ℕ

namespace Memory

def createHashtable (m : Memory) (hashtable buckets : ℕ) : Memory :=
  { m with
    tables := m.tables.alloc hashtable ⟨10, 0, buckets⟩
    arrays := m.arrays.alloc buckets (List.replicate 10 0) }

def createNode (m : Memory) (c : InsertCall) : Memory :=
  { m with
    nodes := m.nodes.alloc c.node ⟨c.text, c.value, 0⟩
    texts := m.texts.alloc c.text c.key }

/-- `hashtable->buckets[index]` for the key. -/
def head (m : Memory) (hashtable : ℕ) (key : Bytes) : Option ℕ :=
  (m.tables.load hashtable).bind fun table =>
    (m.arrays.load table.buckets).bind fun buckets => buckets[hash key table.size]?

/-- The loop of `insert` and `get`. -/
def findNode (m : Memory) (key : Bytes) : ℕ → ℕ → Option (Option ℕ)
  | 0, _ => none
  | fuel + 1, currentNode =>
    if currentNode = 0 then some none
    else (m.nodes.load currentNode).bind fun node => (m.texts.load node.key).bind fun text =>
      if text = key then some (some currentNode) else m.findNode key fuel node.next

def get (m : Memory) (fuel hashtable : ℕ) (key : Bytes) : Option ℤ :=
  (m.head hashtable key).bind fun head => (m.findNode key fuel head).bind fun
    | some currentNode => (m.nodes.load currentNode).map Node.value
    | none => some 0

/-- `currentNode->value++`. -/
def increment (m : Memory) (currentNode : ℕ) : Option Memory :=
  (m.nodes.load currentNode).bind fun node =>
    (m.nodes.store currentNode { node with value := wrapInt 4 (node.value + 1) }).map
      fun nodes => { m with nodes := nodes }

/-- The node goes to the head of the list of its index. -/
def push (m : Memory) (hashtable : ℕ) (key : Bytes) (newNode : ℕ) : Option Memory :=
  (m.tables.load hashtable).bind fun table =>
    (m.arrays.load table.buckets).bind fun buckets =>
      (buckets[hash key table.size]?).bind fun head =>
        (m.nodes.load newNode).bind fun node =>
          (m.nodes.store newNode { node with next := head }).bind fun nodes =>
            (m.arrays.store table.buckets (buckets.set (hash key table.size) newNode)).bind
              fun arrays =>
                (m.tables.store hashtable
                  { table with count := wrapInt 4 (table.count + 1) }).map
                  fun tables => { m with tables := tables, arrays := arrays, nodes := nodes }

def insert (fuel hashtable : ℕ) (m : Memory) (c : InsertCall) : Option Memory :=
  (m.head hashtable c.key).bind fun head => (m.findNode c.key fuel head).bind fun
    | some currentNode => m.increment currentNode
    | none => (m.createNode c).push hashtable c.key c.node

/-- The walk of `main` through one list. -/
def printList (m : Memory) : ℕ → ℕ → Option (List (Bytes × ℤ))
  | 0, _ => none
  | fuel + 1, currentNode =>
    if currentNode = 0 then some []
    else (m.nodes.load currentNode).bind fun node => (m.texts.load node.key).bind fun text =>
      (m.printList fuel node.next).map ((text, node.value) :: ·)

def printTable (m : Memory) (fuel hashtable : ℕ) : Option (List (Bytes × ℤ)) :=
  (m.tables.load hashtable).bind fun table =>
    (List.range table.size).foldlM (fun printed i => (m.arrays.load table.buckets).bind
      fun buckets => (buckets[i]?).bind fun head =>
        (m.printList fuel head).map (printed ++ ·)) []

def destroyList : ℕ → ℕ → Memory → Option Memory
  | 0, _, _ => none
  | fuel + 1, currentNode, m =>
    if currentNode = 0 then some m
    else (m.nodes.load currentNode).bind fun node => (m.texts.free node.key).bind fun texts =>
      (m.nodes.free currentNode).bind fun nodes =>
        destroyList fuel node.next { m with nodes := nodes, texts := texts }

def destroyHashtable (m : Memory) (fuel hashtable : ℕ) : Option Memory :=
  (m.tables.load hashtable).bind fun table =>
    ((List.range table.size).foldlM (fun (m : Memory) i =>
      (m.arrays.load table.buckets).bind fun buckets => (buckets[i]?).bind fun head =>
        destroyList fuel head m) m).bind fun m =>
      (m.arrays.free table.buckets).bind fun arrays =>
        (m.tables.free hashtable).map fun tables => { m with tables := tables, arrays := arrays }

end Memory

/-! ### A list in memory -/

/-- A list with its nodes and what they hold. -/
structure Bucket where
  head : ℕ
  cells : List (ℕ × Node)
  entries : List (Bytes × ℤ)

def CellHolds (texts : Heap Bytes) (cell : ℕ × Node) (entry : Bytes × ℤ) : Prop :=
  texts.load cell.2.key = some entry.1 ∧ cell.2.value = entry.2

structure Bucket.In (m : Memory) (b : Bucket) : Prop where
  chain : m.nodes.Chain Node.next b.head b.cells
  holds : List.Forall₂ (CellHolds m.texts) b.cells b.entries

section Lists
variable {m : Memory} {fuel head : ℕ} {cells : List (ℕ × Node)}
  {entries : List (Bytes × ℤ)}

/-- The loop ends at the first node of the key, or finds none. -/
theorem findNode_spec (key : Bytes) (hchain : m.nodes.Chain Node.next head cells)
    (hholds : List.Forall₂ (CellHolds m.texts) cells entries) (hfuel : cells.length < fuel) :
    (m.findNode key fuel head = some none ∧ ∀ e ∈ entries, e.1 ≠ key) ∨
    ∃ front p node back front' back', cells = front ++ (p, node) :: back ∧
      entries = front' ++ (key, node.value) :: back' ∧
      List.Forall₂ (CellHolds m.texts) front front' ∧
      List.Forall₂ (CellHolds m.texts) back back' ∧
      m.texts.load node.key = some key ∧ (∀ e ∈ front', e.1 ≠ key) ∧
      m.nodes.load p = some node ∧ m.findNode key fuel head = some (some p) := by
  induction hholds generalizing head fuel with
  | nil =>
    obtain ⟨fuel, rfl⟩ : ∃ k, fuel = k + 1 := ⟨fuel - 1, by omega⟩
    obtain rfl : head = 0 := hchain
    exact .inl ⟨by simp [Memory.findNode], by simp⟩
  | @cons cell entry cells entries hcell hrest ih =>
    obtain ⟨fuel, rfl⟩ : ∃ k, fuel = k + 1 := ⟨fuel - 1, by omega⟩
    obtain ⟨rfl, hzero, hblock, hchain⟩ := hchain
    obtain ⟨htext, hvalue⟩ := hcell
    have hload := Heap.load_of hzero hblock
    have hround : m.findNode key (fuel + 1) cell.1 =
        if entry.1 = key then some (some cell.1) else m.findNode key fuel cell.2.next := by
      simp only [Memory.findNode, if_neg hzero, hload, htext, Option.bind_some]
    by_cases hkey : entry.1 = key
    · refine .inr ⟨[], cell.1, cell.2, cells, [], entries, rfl, ?_, .nil, hrest, ?_, by simp,
        hload, by rw [hround, if_pos hkey]⟩
      · rw [List.nil_append, ← hkey, hvalue]
      · rw [htext, hkey]
    · rw [hround, if_neg hkey]
      rcases ih hchain (by simpa using hfuel) with ⟨hnone, hall⟩ | hfound
      · refine .inl ⟨hnone, fun e he => ?_⟩
        rcases List.mem_cons.mp he with rfl | he
        · exact hkey
        · exact hall e he
      · obtain ⟨front, p, node, back, front', back', rfl, rfl, hfront, hback, htext', hother,
          hload', hfind⟩ := hfound
        refine .inr ⟨cell :: front, p, node, back, entry :: front', back', rfl, rfl,
          .cons ⟨htext, hvalue⟩ hfront, hback, htext', fun e he => ?_, hload', hfind⟩
        rcases List.mem_cons.mp he with rfl | he
        · exact hkey
        · exact hother e he

theorem printList_spec (hchain : m.nodes.Chain Node.next head cells)
    (hholds : List.Forall₂ (CellHolds m.texts) cells entries) (hfuel : cells.length < fuel) :
    m.printList fuel head = some entries := by
  induction hholds generalizing head fuel with
  | nil =>
    obtain ⟨fuel, rfl⟩ : ∃ k, fuel = k + 1 := ⟨fuel - 1, by omega⟩
    obtain rfl : head = 0 := hchain
    simp [Memory.printList]
  | @cons cell entry cells entries hcell hrest ih =>
    obtain ⟨fuel, rfl⟩ : ∃ k, fuel = k + 1 := ⟨fuel - 1, by omega⟩
    obtain ⟨rfl, hzero, hblock, hchain⟩ := hchain
    have hlater := ih hchain (by simpa using hfuel)
    simp only [Memory.printList, if_neg hzero, Heap.load_of hzero hblock, hcell.1, hcell.2,
      Option.bind_some, hlater, Option.map_some]

/-- Every node is freed once, with its text. -/
theorem destroyList_spec {nodes : Heap Node} {texts : Heap Bytes} {laterNodes laterTexts : List ℕ}
    (hchain : m.nodes.Chain Node.next head cells) (hfuel : cells.length < fuel)
    (hnodes : nodes.Owns m.nodes (cells.map Prod.fst ++ laterNodes))
    (htexts : texts.Owns m.texts (cells.map (·.2.key) ++ laterTexts)) :
    ∃ after, Memory.destroyList fuel head m = some after ∧ after.tables = m.tables ∧
      after.arrays = m.arrays ∧ nodes.Owns after.nodes laterNodes ∧
      texts.Owns after.texts laterTexts ∧ ∀ p ∈ laterNodes, after.nodes p = m.nodes p := by
  induction cells generalizing head fuel m with
  | nil =>
    obtain ⟨fuel, rfl⟩ : ∃ k, fuel = k + 1 := ⟨fuel - 1, by omega⟩
    obtain rfl : head = 0 := hchain
    exact ⟨m, by simp [Memory.destroyList], rfl, rfl, hnodes, htexts, fun _ _ => rfl⟩
  | cons cell cells ih =>
    obtain ⟨fuel, rfl⟩ : ∃ k, fuel = k + 1 := ⟨fuel - 1, by omega⟩
    obtain ⟨rfl, hzero, hblock, hchain⟩ := hchain
    obtain ⟨freedNodes, hfreeNode, hnodes', hkeptNodes⟩ := hnodes.free
    obtain ⟨freedTexts, hfreeText, htexts', -⟩ := htexts.free
    have hnew := (List.nodup_cons.mp hnodes.nodup).1
    have hchain' : freedNodes.Chain Node.next cell.2.next cells :=
      hchain.congr fun p hp => hkeptNodes p fun heq => hnew (heq ▸ List.mem_append_left _ hp)
    obtain ⟨after, hafter, htables, harrays, hafterNodes, hafterTexts, hsame⟩ :=
      ih (m := { m with nodes := freedNodes, texts := freedTexts }) hchain'
        (by simpa using hfuel) hnodes' htexts'
    refine ⟨after, ?_, htables, harrays, hafterNodes, hafterTexts, fun p hp => ?_⟩
    · simpa only [Memory.destroyList, if_neg hzero, Heap.load_of hzero hblock, hfreeText,
        hfreeNode, Option.bind_some] using hafter
    · rw [hsame p hp]
      exact hkeptNodes p fun heq => hnew (heq ▸ List.mem_append_right _ hp)

end Lists

/-! ### The table in memory -/

/-- `m` is `before` with the table `t`, whose lists are `bs`, and nothing else. -/
structure TableAt (before m : Memory) (hashtable buckets : ℕ) (t : Hashtable) (bs : List Bucket) :
    Prop where
  tables : before.tables.Owns m.tables [hashtable]
  arrays : before.arrays.Owns m.arrays [buckets]
  nodes : before.nodes.Owns m.nodes (bs.flatMap fun b => b.cells.map Prod.fst)
  texts : before.texts.Owns m.texts (bs.flatMap fun b => b.cells.map (·.2.key))
  record : m.tables hashtable = some ⟨t.size, t.count, buckets⟩
  array : m.arrays buckets = some (bs.map Bucket.head)
  lists : t.buckets = bs.map Bucket.entries
  size : bs.length = t.size
  positive : 0 < t.size
  each : ∀ b ∈ bs, b.In m

def nodeCount (bs : List Bucket) : ℕ := (bs.flatMap Bucket.cells).length

section Table
variable {before m : Memory} {hashtable buckets fuel : ℕ} {t : Hashtable} {bs : List Bucket}
  {key : Bytes} {c : InsertCall}

theorem length_le_nodeCount {b : Bucket} (hb : b ∈ bs) : b.cells.length ≤ nodeCount bs := by
  obtain ⟨l₁, l₂, rfl⟩ := List.append_of_mem hb
  simp only [nodeCount, List.flatMap_append, List.flatMap_cons, List.length_append]
  omega

theorem TableAt.loadRecord (h : TableAt before m hashtable buckets t bs) :
    m.tables.load hashtable = some ⟨t.size, t.count, buckets⟩ :=
  Heap.load_of (h.tables.mine _ List.mem_cons_self).1 h.record

theorem TableAt.loadArray (h : TableAt before m hashtable buckets t bs) :
    m.arrays.load buckets = some (bs.map Bucket.head) :=
  Heap.load_of (h.arrays.mine _ List.mem_cons_self).1 h.array

/-- The list of a key. -/
theorem TableAt.bucket (h : TableAt before m hashtable buckets t bs) (key : Bytes) :
    ∃ b, bs[hash key t.size]? = some b ∧ t.bucket key = b.entries ∧
      m.head hashtable key = some b.head := by
  have hlt : hash key t.size < bs.length := by
    rw [h.size]
    exact Nat.mod_lt _ h.positive
  refine ⟨bs[hash key t.size], List.getElem?_eq_getElem hlt, ?_, ?_⟩
  · rw [Hashtable.bucket, h.lists, List.getD_eq_getElem?_getD, List.getElem?_map,
      List.getElem?_eq_getElem hlt]
    rfl
  · rw [Memory.head, h.loadRecord, Option.bind_some, h.loadArray, Option.bind_some,
      List.getElem?_map, List.getElem?_eq_getElem hlt]
    rfl

theorem lookup_front {front back : List (Bytes × ℤ)} {value : ℤ} (h : ∀ e ∈ front, e.1 ≠ key) :
    (front ++ (key, value) :: back).lookup key = some value := by
  induction front with
  | nil => simp
  | cons e front ih =>
    have hne : key ≠ e.1 := Ne.symm (h e List.mem_cons_self)
    rw [List.cons_append, lookup_cons_eq e.1, if_neg hne]
    exact ih fun e he => h e (List.mem_cons_of_mem _ he)

theorem increment_front {front back : List (Bytes × ℤ)} {value : ℤ}
    (h : ∀ e ∈ front, e.1 ≠ key) : Hashtable.increment key (front ++ (key, value) :: back) =
      front ++ (key, wrapInt 4 (value + 1)) :: back := by
  induction front with
  | nil => simp [Hashtable.increment]
  | cons e front ih =>
    have hne : e.1 ≠ key := h e List.mem_cons_self
    rw [List.cons_append, Hashtable.increment, if_neg hne,
      ih fun e he => h e (List.mem_cons_of_mem _ he), List.cons_append]

theorem any_eq_false {entries : List (Bytes × ℤ)} (h : ∀ e ∈ entries, e.1 ≠ key) :
    entries.any (·.1 = key) = false :=
  List.any_eq_false.mpr fun e he => by simpa using h e he

theorem TableAt.get (h : TableAt before m hashtable buckets t bs) (hfuel : nodeCount bs < fuel)
    (key : Bytes) : m.get fuel hashtable key = some (t.get key) := by
  obtain ⟨b, hb, hentries, hhead⟩ := h.bucket key
  have hmem := List.mem_of_getElem? hb
  have hin := h.each b hmem
  have hlt := Nat.lt_of_le_of_lt (length_le_nodeCount hmem) hfuel
  rw [Memory.get, hhead, Option.bind_some, Hashtable.get, hentries]
  rcases findNode_spec key hin.chain hin.holds hlt with ⟨hfind, hother⟩ |
    ⟨front, p, node, back, front', back', -, hsplit, -, -, -, hother, hload, hfind⟩
  · have hnone : b.entries.lookup key = none := by
      refine List.lookup_eq_none_iff.mpr fun e he => ?_
      simpa using Ne.symm (hother e he)
    rw [hfind, hnone]
    rfl
  · rw [hfind, hsplit, lookup_front hother, Option.bind_some, Option.getD_some]
    simp only [hload, Option.map_some]

theorem holds_congr {texts texts' : Heap Bytes} {cells : List (ℕ × Node)}
    {entries : List (Bytes × ℤ)} (h : List.Forall₂ (CellHolds texts) cells entries)
    (hsame : ∀ p ∈ cells.map (·.2.key), texts' p = texts p) :
    List.Forall₂ (CellHolds texts') cells entries := by
  induction h with
  | nil => exact .nil
  | @cons cell entry cells entries hcell _ ih =>
    refine .cons ⟨?_, hcell.2⟩ (ih fun p hp => hsame p (List.mem_cons_of_mem _ hp))
    rw [Heap.load, hsame cell.2.key List.mem_cons_self]
    exact hcell.1

/-- The other lists of the table keep their nodes. -/
theorem Bucket.In.other {b : Bucket} {after : Memory} (h : b.In m)
    (hnodes : ∀ p ∈ b.cells.map Prod.fst, after.nodes p = m.nodes p)
    (htexts : ∀ p ∈ b.cells.map (·.2.key), after.texts p = m.texts p) : b.In after where
  chain := h.chain.congr hnodes
  holds := holds_congr h.holds htexts

/-- A node is in one list only. -/
theorem TableAt.apart {l₁ l₂ : List Bucket} {b x : Bucket} {p : ℕ}
    (h : TableAt before m hashtable buckets t (l₁ ++ b :: l₂)) (hp : p ∈ b.cells.map Prod.fst)
    (hx : x ∈ l₁ ∨ x ∈ l₂) : p ∉ x.cells.map Prod.fst := by
  have hnodup := h.nodes.nodup
  rw [List.flatMap_append, List.flatMap_cons] at hnodup
  obtain ⟨-, hlater, hfront⟩ := List.nodup_append.mp hnodup
  intro hmem
  rcases hx with hx | hx
  · have hleft : p ∈ l₁.flatMap fun b => b.cells.map Prod.fst :=
      List.mem_flatMap.mpr ⟨x, hx, hmem⟩
    exact hfront p hleft p (List.mem_append_left _ hp) rfl
  · have hright : p ∈ l₂.flatMap fun b => b.cells.map Prod.fst :=
      List.mem_flatMap.mpr ⟨x, hx, hmem⟩
    exact (List.nodup_append.mp hlater).2.2 p hp p hright rfl

/-- A node of the list of the key is counted up. -/
theorem TableAt.increment {l₁ l₂ : List Bucket} {b : Bucket} {front back : List (ℕ × Node)}
    {p : ℕ} {node : Node} {front' back' : List (Bytes × ℤ)}
    (h : TableAt before m hashtable buckets t (l₁ ++ b :: l₂))
    (hcells : b.cells = front ++ (p, node) :: back)
    (hfront : List.Forall₂ (CellHolds m.texts) front front')
    (hback : List.Forall₂ (CellHolds m.texts) back back')
    (htext : m.texts.load node.key = some key) (hload : m.nodes.load p = some node)
    {u : Hashtable} (hsize : u.size = t.size) (hcount : u.count = t.count)
    (hlists : u.buckets = (l₁.map Bucket.entries) ++
      (front' ++ (key, wrapInt 4 (node.value + 1)) :: back') :: l₂.map Bucket.entries) :
    ∃ after b', m.increment p = some after ∧ b'.cells.length = b.cells.length ∧
      TableAt before after hashtable buckets u (l₁ ++ b' :: l₂) := by
  set node' : Node := { node with value := wrapInt 4 (node.value + 1) } with hnode'
  set b' : Bucket := ⟨b.head, front ++ (p, node') :: back,
    front' ++ (key, wrapInt 4 (node.value + 1)) :: back'⟩ with hb'
  have haddresses : b'.cells.map Prod.fst = b.cells.map Prod.fst := by simp [hb', hcells]
  have hkeys : b'.cells.map (·.2.key) = b.cells.map (·.2.key) := by simp [hb', hcells, hnode']
  have hp : p ∈ b.cells.map Prod.fst := by simp [hcells]
  refine ⟨{ m with nodes := m.nodes.alloc p node' }, b', ?_, by simp [hb', hcells], ?_⟩
  · rw [Memory.increment, hload, Option.bind_some, Heap.store_of hload, Option.map_some]
  constructor
  case tables => exact h.tables
  case arrays => exact h.arrays
  case nodes =>
    have hsame : (l₁ ++ b' :: l₂).flatMap (fun b => b.cells.map Prod.fst) =
        (l₁ ++ b :: l₂).flatMap fun b => b.cells.map Prod.fst := by
      simp only [List.flatMap_append, List.flatMap_cons, haddresses]
    rw [hsame]
    exact h.nodes.store (by simp [hcells]) node'
  case texts =>
    have hsame : (l₁ ++ b' :: l₂).flatMap (fun b => b.cells.map (·.2.key)) =
        (l₁ ++ b :: l₂).flatMap fun b => b.cells.map (·.2.key) := by
      simp only [List.flatMap_append, List.flatMap_cons, hkeys]
    rw [hsame]
    exact h.texts
  case record => rw [hsize, hcount, h.record]
  case array => simpa [hb'] using h.array
  case lists => rw [hlists]; simp [hb']
  case size => rw [hsize, ← h.size]; simp
  case positive => rw [hsize]; exact h.positive
  case each =>
    have hother (x : Bucket) (hx : x.In m) (hapart : p ∉ x.cells.map Prod.fst) :
        x.In { m with nodes := m.nodes.alloc p node' } :=
      hx.other (fun q hq => Heap.alloc_ne fun heq => hapart (heq ▸ hq)) fun q _ => rfl
    intro x hx
    rcases List.mem_append.mp hx with hleft | hright
    · exact hother x (h.each x (by simp [hleft])) (h.apart hp (.inl hleft))
    rcases List.mem_cons.mp hright with rfl | hright
    · have hin := h.each b (by simp)
      have hchain := hin.chain
      have hnodup : (b.cells.map Prod.fst).Nodup := by
        have hall := h.nodes.nodup
        rw [List.flatMap_append, List.flatMap_cons] at hall
        exact (List.nodup_append.mp (List.nodup_append.mp hall).2.1).1
      rw [hcells] at hchain hnodup
      exact ⟨hchain.replace hnodup rfl, List.rel_append hfront (.cons ⟨htext, rfl⟩ hback)⟩
    · exact hother x (h.each x (by simp [hright])) (h.apart hp (.inr hright))

/-- A new node at the head of the list of the key. -/
theorem TableAt.push {l₁ l₂ : List Bucket} {b : Bucket}
    (h : TableAt before m hashtable buckets t (l₁ ++ b :: l₂))
    (hnode : m.nodes.Fresh c.node) (htext : m.texts.Fresh c.text)
    (hb : (l₁ ++ b :: l₂)[hash c.key t.size]? = some b)
    (hset : ∀ x, (l₁ ++ b :: l₂).set (hash c.key t.size) x = l₁ ++ x :: l₂)
    {u : Hashtable} (hsize : u.size = t.size) (hcount : u.count = wrapInt 4 (t.count + 1))
    (hlists : u.buckets = (l₁.map Bucket.entries) ++
      ((c.key, c.value) :: b.entries) :: l₂.map Bucket.entries) :
    ∃ after b', (m.createNode c).push hashtable c.key c.node = some after ∧
      b'.cells.length = b.cells.length + 1 ∧
      TableAt before after hashtable buckets u (l₁ ++ b' :: l₂) := by
  set node : Node := ⟨c.text, c.value, b.head⟩ with hnode'
  set b' : Bucket := ⟨c.node, (c.node, node) :: b.cells, (c.key, c.value) :: b.entries⟩ with hb'
  have hin := h.each b (by simp)
  have hheads : ((l₁ ++ b :: l₂).map Bucket.head).set (hash c.key t.size) c.node =
      (l₁ ++ b' :: l₂).map Bucket.head := by
    rw [← hset b', List.map_set]
  set after : Memory := ⟨m.tables.alloc hashtable ⟨t.size, wrapInt 4 (t.count + 1), buckets⟩,
    m.arrays.alloc buckets ((l₁ ++ b' :: l₂).map Bucket.head), m.nodes.alloc c.node node,
    m.texts.alloc c.text c.key⟩
  refine ⟨after, b', ?_, by simp [hb'], ?_⟩
  · have hload : (m.createNode c).nodes.load c.node = some ⟨c.text, c.value, 0⟩ :=
      Heap.load_of hnode.1 Heap.alloc_self
    have htables : (m.createNode c).tables = m.tables := rfl
    have harrays : (m.createNode c).arrays = m.arrays := rfl
    have hnodes : (m.createNode c).nodes.alloc c.node node = m.nodes.alloc c.node node :=
      Function.update_idem ..
    have hhead : ((l₁ ++ b :: l₂).map Bucket.head)[hash c.key t.size]? = some b.head := by
      rw [List.getElem?_map, hb, Option.map_some]
    simp only [Memory.push, htables, harrays, h.loadRecord, h.loadArray, Option.bind_some, hhead,
      hload, Heap.store_of hload, Heap.store_of h.loadRecord, Heap.store_of h.loadArray, hheads,
      Option.map_some]
    rw [← hnode', hnodes]
    rfl
  have hnewNode := h.nodes.fresh_not_mem hnode
  have hnewText := h.texts.fresh_not_mem htext
  have hkept (x : Bucket) (hx : x ∈ l₁ ++ b :: l₂) :
      (∀ p ∈ x.cells.map Prod.fst, m.nodes.alloc c.node node p = m.nodes p) ∧
      ∀ p ∈ x.cells.map (·.2.key), m.texts.alloc c.text c.key p = m.texts p := by
    constructor
    · intro p hp
      exact Heap.alloc_ne fun heq => hnewNode (List.mem_flatMap.mpr ⟨x, hx, heq ▸ hp⟩)
    · intro p hp
      exact Heap.alloc_ne fun heq => hnewText (List.mem_flatMap.mpr ⟨x, hx, heq ▸ hp⟩)
  constructor
  case tables => exact h.tables.store List.mem_cons_self _
  case arrays => exact h.arrays.store List.mem_cons_self _
  case nodes =>
    refine (h.nodes.alloc hnode node).perm ?_
    simp only [List.flatMap_append, List.flatMap_cons, hb', List.map_cons, List.cons_append]
    exact List.perm_middle.symm
  case texts =>
    refine (h.texts.alloc htext c.key).perm ?_
    simp only [List.flatMap_append, List.flatMap_cons, hb', hnode', List.map_cons,
      List.cons_append]
    exact List.perm_middle.symm
  case record => rw [hsize, hcount]; exact Heap.alloc_self
  case array => exact Heap.alloc_self
  case lists => rw [hlists]; simp [hb']
  case size => rw [hsize, ← h.size]; simp
  case positive => rw [hsize]; exact h.positive
  case each =>
    intro x hx
    have hother (hx : x ∈ l₁ ++ b :: l₂) : x.In after :=
      (h.each x hx).other (hkept x hx).1 (hkept x hx).2
    rcases List.mem_append.mp hx with hleft | hright
    · exact hother (List.mem_append_left _ hleft)
    rcases List.mem_cons.mp hright with rfl | hright
    · obtain ⟨hnodes, htexts⟩ := hkept b (by simp)
      refine ⟨hin.chain.push hnode (fun hmem => ?_) rfl, .cons ⟨?_, rfl⟩ ?_⟩
      · exact hnewNode (List.mem_flatMap.mpr ⟨b, by simp, hmem⟩)
      · exact Heap.load_of htext.1 Heap.alloc_self
      · exact holds_congr hin.holds htexts
    · exact hother (List.mem_append_right _ (List.mem_cons_of_mem _ hright))

theorem TableAt.insert (h : TableAt before m hashtable buckets t bs) (hfuel : nodeCount bs < fuel)
    (hnode : m.nodes.Fresh c.node) (htext : m.texts.Fresh c.text) :
    ∃ after bs', Memory.insert fuel hashtable m c = some after ∧
      TableAt before after hashtable buckets (t.insert c.key c.value) bs' ∧
      nodeCount bs' ≤ nodeCount bs + 1 := by
  obtain ⟨b, hb, hentries, hhead⟩ := h.bucket c.key
  have hmem := List.mem_of_getElem? hb
  have hin := h.each b hmem
  have hlt := Nat.lt_of_le_of_lt (length_le_nodeCount hmem) hfuel
  obtain ⟨l₁, l₂, rfl, hset⟩ := set_split hb
  have hcounted {b' : Bucket} (hle : b'.cells.length ≤ b.cells.length + 1) :
      nodeCount (l₁ ++ b' :: l₂) ≤ nodeCount (l₁ ++ b :: l₂) + 1 := by
    simp only [nodeCount, List.flatMap_append, List.flatMap_cons, List.length_append]
    omega
  have hbuckets (entries : List (Bytes × ℤ)) : t.buckets.set (hash c.key t.size) entries =
      l₁.map Bucket.entries ++ entries :: l₂.map Bucket.entries := by
    have hmap := congrArg (List.map Bucket.entries) (hset ⟨b.head, b.cells, entries⟩)
    simpa [h.lists, List.map_set] using hmap
  rcases findNode_spec c.key hin.chain hin.holds hlt with ⟨hfind, hother⟩ |
    ⟨front, p, node, back, front', back', hcells, hsplit, hfront, hback, htext', hother, hload,
      hfind⟩
  · have hany : (t.bucket c.key).any (·.1 = c.key) = false := by
      rw [hentries, any_eq_false hother]
    have hinsert : t.insert c.key c.value = { t with
        buckets := l₁.map Bucket.entries ++ ((c.key, c.value) :: b.entries) ::
          l₂.map Bucket.entries
        count := wrapInt 4 (t.count + 1) } := by
      rw [Hashtable.insert, if_neg (by rw [hany]; decide), hentries, hbuckets]
    obtain ⟨after, b', hpush, hlength, htable⟩ := h.push (u := t.insert c.key c.value) hnode
      htext hb hset (by rw [hinsert]) (by rw [hinsert]) (by rw [hinsert])
    refine ⟨after, _, ?_, htable, hcounted hlength.le⟩
    rw [Memory.insert, hhead, Option.bind_some, hfind]
    exact hpush
  · have hany : (t.bucket c.key).any (·.1 = c.key) = true := by
      rw [hentries, hsplit]
      simp
    have hinsert : t.insert c.key c.value = { t with
        buckets := l₁.map Bucket.entries ++
          (front' ++ (c.key, wrapInt 4 (node.value + 1)) :: back') :: l₂.map Bucket.entries } := by
      rw [Hashtable.insert, if_pos hany, hentries, hbuckets, hsplit, increment_front hother]
    obtain ⟨after, b', hincrement, hlength, htable⟩ :=
      h.increment (u := t.insert c.key c.value) hcells hfront hback htext' hload
        (by rw [hinsert]) (by rw [hinsert]) (by rw [hinsert])
    refine ⟨after, _, ?_, htable, hcounted (by omega)⟩
    rw [Memory.insert, hhead, Option.bind_some, hfind]
    exact hincrement

theorem destroyList_arrays {head : ℕ} {after : Memory}
    (h : Memory.destroyList fuel head m = some after) : after.arrays = m.arrays := by
  induction fuel generalizing head m with
  | zero => contradiction
  | succ fuel ih =>
    unfold Memory.destroyList at h
    split at h
    · rw [Option.some.inj h]
    · obtain ⟨node, -, h⟩ := Option.bind_eq_some_iff.mp h
      obtain ⟨texts, -, h⟩ := Option.bind_eq_some_iff.mp h
      obtain ⟨nodes, -, h⟩ := Option.bind_eq_some_iff.mp h
      exact (ih h).trans rfl

/-- The lists are freed one after the other. -/
theorem destroyLists_spec {nodes : Heap Node} {texts : Heap Bytes}
    (hchains : ∀ b ∈ bs, m.nodes.Chain Node.next b.head b.cells) (hfuel : nodeCount bs < fuel)
    (hnodes : nodes.Owns m.nodes (bs.flatMap fun b => b.cells.map Prod.fst))
    (htexts : texts.Owns m.texts (bs.flatMap fun b => b.cells.map (·.2.key))) :
    ∃ after, bs.foldlM (fun m b => Memory.destroyList fuel b.head m) m = some after ∧
      after.tables = m.tables ∧ after.arrays = m.arrays ∧ after.nodes = nodes ∧
      after.texts = texts := by
  induction bs generalizing m with
  | nil => exact ⟨m, rfl, rfl, rfl, hnodes.back, htexts.back⟩
  | cons b bs ih =>
    have hlength : b.cells.length < fuel :=
      Nat.lt_of_le_of_lt (length_le_nodeCount List.mem_cons_self) hfuel
    have hlater : nodeCount bs < fuel := by
      simp only [nodeCount, List.flatMap_cons, List.length_append] at hfuel ⊢
      omega
    rw [List.flatMap_cons] at hnodes htexts
    obtain ⟨next, hnext, htables, harrays, hnodes', htexts', hsame⟩ :=
      destroyList_spec (hchains b List.mem_cons_self) hlength hnodes htexts
    have hchains' : ∀ x ∈ bs, next.nodes.Chain Node.next x.head x.cells := by
      intro x hx
      refine (hchains x (List.mem_cons_of_mem b hx)).congr fun p hp => hsame p ?_
      exact List.mem_flatMap.mpr ⟨x, hx, hp⟩
    obtain ⟨after, hafter, htables', harrays', hrest⟩ := ih hchains' hlater hnodes' htexts'
    refine ⟨after, ?_, htables'.trans htables, harrays'.trans harrays, hrest⟩
    rw [List.foldlM_cons, hnext]
    exact hafter

/-- `destroyHashtable` gives back the memory as it was before the table. -/
theorem TableAt.destroy (h : TableAt before m hashtable buckets t bs)
    (hfuel : nodeCount bs < fuel) : m.destroyHashtable fuel hashtable = some before := by
  obtain ⟨after, hlists, htables, harrays, hnodes, htexts⟩ :=
    destroyLists_spec (fun b hb => (h.each b hb).chain) hfuel h.nodes h.texts
  have hround (x : Memory) (i : ℕ) (b : Bucket) (hx : x.arrays = m.arrays) (hb : bs[i]? = some b) :
      ((x.arrays.load buckets).bind fun heads => (heads[0 + i]?).bind fun head =>
        Memory.destroyList fuel head x) = Memory.destroyList fuel b.head x := by
    rw [hx, h.loadArray, Option.bind_some, Nat.zero_add, List.getElem?_map, hb, Option.map_some,
      Option.bind_some]
  have hkeep (x : Memory) (b : Bucket) (y : Memory) (hx : x.arrays = m.arrays)
      (hy : Memory.destroyList fuel b.head x = some y) : y.arrays = m.arrays := by
    rw [destroyList_arrays hy, hx]
  have hloop : (List.range t.size).foldlM (fun x i => (x.arrays.load buckets).bind fun heads =>
      (heads[i]?).bind fun head => Memory.destroyList fuel head x) m = some after := by
    rw [← hlists, ← h.size, List.range_eq_range']
    exact foldlM_range 0 hround hkeep rfl
  obtain ⟨freedArrays, hfreeArray, harrays', -⟩ := h.arrays.free
  obtain ⟨freedTables, hfreeTable, htables', -⟩ := h.tables.free
  rw [Memory.destroyHashtable, h.loadRecord, Option.bind_some]
  dsimp only
  rw [hloop, Option.bind_some, harrays, hfreeArray, Option.bind_some, htables, hfreeTable,
    Option.map_some, hnodes, htexts, harrays'.back, htables'.back]

theorem TableAt.printed (h : TableAt before m hashtable buckets t bs)
    (hfuel : nodeCount bs < fuel) : m.printTable fuel hashtable = some t.printed := by
  have hprinted : t.printed = bs.flatMap Bucket.entries := by
    rw [Hashtable.printed, h.lists, ← h.size, List.flatMap_def, List.flatMap_def]
    congr 1
    apply List.ext_getElem
    · simp
    · intro i hi hi'
      simp [List.getElem?_eq_getElem (show i < bs.length by simpa using hi')]
  have hround (done : List (Bytes × ℤ)) (i : ℕ) (b : Bucket) (_ : True) (hb : bs[i]? = some b) :
      ((m.arrays.load buckets).bind fun heads => (heads[0 + i]?).bind fun head =>
        (m.printList fuel head).map (done ++ ·)) = (m.printList fuel b.head).map (done ++ ·) := by
    rw [h.loadArray, Option.bind_some, Nat.zero_add, List.getElem?_map, hb, Option.map_some,
      Option.bind_some]
  have hlist (b : Bucket) (hb : b ∈ bs) (done : List (Bytes × ℤ)) :
      (m.printList fuel b.head).map (done ++ ·) = some (done ++ b.entries) := by
    have hin := h.each b hb
    rw [printList_spec hin.chain hin.holds
      (Nat.lt_of_le_of_lt (length_le_nodeCount hb) hfuel), Option.map_some]
  have hloop : (List.range t.size).foldlM (fun done i => (m.arrays.load buckets).bind fun heads =>
      (heads[i]?).bind fun head => (m.printList fuel head).map (done ++ ·)) [] =
      some ([] ++ bs.flatMap Bucket.entries) := by
    rw [← foldlM_append bs hlist [], ← h.size, List.range_eq_range']
    exact foldlM_range 0 hround (fun _ _ _ _ _ => trivial) trivial
  rw [Memory.printTable, h.loadRecord, Option.bind_some, hprinted]
  exact hloop

theorem tableAt_create (htable : before.tables.Fresh hashtable)
    (harray : before.arrays.Fresh buckets) :
    TableAt before (before.createHashtable hashtable buckets) hashtable buckets createHashtable
      (List.replicate 10 ⟨0, [], []⟩) where
  tables := (Heap.Owns.refl _).alloc htable _
  arrays := (Heap.Owns.refl _).alloc harray _
  nodes := Heap.Owns.refl _
  texts := Heap.Owns.refl _
  record := Heap.alloc_self
  array := Heap.alloc_self
  lists := rfl
  size := rfl
  positive := by decide
  each b hb := by
    rw [List.eq_of_mem_replicate hb]
    exact ⟨rfl, .nil⟩

end Table

/-! ### Any number of calls -/

def inserts (fuel hashtable : ℕ) (m : Memory) (calls : List InsertCall) : Option Memory :=
  calls.foldlM (Memory.insert fuel hashtable) m

/-- At every call `malloc` and `strdup` have free addresses to return. -/
def MallocOk (fuel hashtable : ℕ) : Memory → List InsertCall → Prop
  | _, [] => True
  | m, c :: calls => (m.nodes.Fresh c.node ∧ m.texts.Fresh c.text) ∧
      ∀ next ∈ Memory.insert fuel hashtable m c, MallocOk fuel hashtable next calls

section Calls
variable {before m : Memory} {hashtable buckets fuel : ℕ} {t : Hashtable} {bs : List Bucket}

theorem TableAt.inserts {calls : List InsertCall} (h : TableAt before m hashtable buckets t bs)
    (hfuel : nodeCount bs + calls.length < fuel) (hmalloc : MallocOk fuel hashtable m calls) :
    ∃ after bs', inserts fuel hashtable m calls = some after ∧ nodeCount bs' < fuel ∧
      TableAt before after hashtable buckets
        (calls.foldl (fun t c => t.insert c.key c.value) t) bs' := by
  induction calls generalizing m t bs with
  | nil => exact ⟨m, bs, rfl, by simpa using hfuel, h⟩
  | cons c calls ih =>
    obtain ⟨⟨hnode, htext⟩, hlater⟩ := hmalloc
    rw [List.length_cons] at hfuel
    have hlt : nodeCount bs < fuel := by omega
    obtain ⟨next, bs', hnext, htable, hcount⟩ := h.insert hlt hnode htext
    obtain ⟨after, bs'', hafter, hresult⟩ := ih htable (by omega) (hlater next hnext)
    refine ⟨after, bs'', ?_, hresult⟩
    rw [Copier.inserts, List.foldlM_cons, hnext]
    exact hafter

end Calls

/-- The table in memory is the table of lists: no call touches memory that is not there, every
loop ends, `get` and the walk of `main` find what the table holds, and `destroyHashtable` frees
every block once and nothing else. -/
theorem table_in_memory (before : Memory) (hashtable buckets fuel : ℕ) (calls : List InsertCall)
    (htable : before.tables.Fresh hashtable) (harray : before.arrays.Fresh buckets)
    (hfuel : calls.length < fuel)
    (hmalloc : MallocOk fuel hashtable (before.createHashtable hashtable buckets) calls) :
    ∃ m, inserts fuel hashtable (before.createHashtable hashtable buckets) calls = some m ∧
      let t := calls.foldl (fun t c => t.insert c.key c.value) createHashtable
      (∀ key, m.get fuel hashtable key = some (t.get key)) ∧
      m.printTable fuel hashtable = some t.printed ∧
      m.destroyHashtable fuel hashtable = some before := by
  obtain ⟨m, bs, hm, hcount, ht⟩ :=
    (tableAt_create htable harray).inserts (by simpa [nodeCount] using hfuel) hmalloc
  exact ⟨m, hm, ht.get hcount, ht.printed hcount, ht.destroy hcount⟩

def decMallocOk (fuel hashtable : ℕ) :
    (m : Memory) → (calls : List InsertCall) → Decidable (MallocOk fuel hashtable m calls)
  | _, [] => inferInstanceAs (Decidable True)
  | _, _ :: calls =>
    have := fun next => decMallocOk fuel hashtable next calls
    inferInstanceAs (Decidable (((_ ∧ _) ∧ _ ∧ _) ∧ ∀ _ ∈ Memory.insert fuel hashtable _ _, _))

instance (fuel hashtable : ℕ) (m : Memory) (calls : List InsertCall) :
    Decidable (MallocOk fuel hashtable m calls) := decMallocOk fuel hashtable m calls

def noMemory : Memory := ⟨fun _ => none, fun _ => none, fun _ => none, fun _ => none⟩

/-- The addresses are those of a bump allocator. -/
def threeCalls : List InsertCall :=
  [⟨utf8 "c", 1, 16, 32⟩, ⟨utf8 "md", 1, 48, 64⟩, ⟨utf8 "c", 2, 80, 96⟩]

theorem threeCalls_in_memory : ∃ m,
    inserts 4 8 (noMemory.createHashtable 8 12) threeCalls = some m ∧
    m.get 4 8 (utf8 "c") = some 2 ∧ m.destroyHashtable 4 8 = some noMemory := by
  obtain ⟨m, hm, hget, -, hdestroy⟩ := table_in_memory noMemory 8 12 4 threeCalls
    (by simp [Heap.Fresh, noMemory]) (by simp [Heap.Fresh, noMemory]) (by decide)
    (by decide +kernel)
  refine ⟨m, hm, ?_, hdestroy⟩
  rw [hget]
  decide

end AdvancedCProjects.Copier

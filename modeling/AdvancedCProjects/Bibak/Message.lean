import AdvancedCProjects.Bibak.Table

/-!
# Change messages (BibakBOXClient.c:122-208, 290-350)

What the client puts on the connection for one change. A tag with its length
comes first, then integers in the widths of the variables that are sent.
-/

namespace AdvancedCProjects.Bibak
open Base

inductive Message where
  | create (path : Path) (fileSize : ℤ)
  | delete (path : Path)
  | update (fileSize : ℤ) (path : Path) (data : Bytes)
  deriving DecidableEq

/-- `getFileSize`: an `int`, and -1 when `stat` fails. -/
def getFileSize (f : Option Inode) : ℤ :=
  match f with
  | some f => wrapInt 4 f.content.length
  | none => -1

theorem getFileSize_of_small {f : Inode} (h : f.content.length < 2 ^ 31) :
    getFileSize (some f) = f.content.length :=
  wrapInt_of_fits (by omega) (by omega)

def createdDetected (filePath basePath : Path) (file : Option Inode) : Message :=
  .create (removeBasePath filePath basePath) (getFileSize file)

def deletedDetected (filePath basePath : Path) : Message :=
  .delete (removeBasePath filePath basePath)

/-- The data are left out when `fopen` fails. -/
def updateDetected (filePath basePath : Path) (file : Option Inode) : Message :=
  .update (getFileSize file) (removeBasePath filePath basePath) ((file.map Inode.content).getD [])

inductive Event where
  | created (file : Inode)
  | deleted (filePath : Path)
  | updated (file : Inode)

def Event.message (basePath : Path) : Event → Message
  | .created file => createdDetected file.path basePath (some file)
  | .deleted filePath => deletedDetected filePath basePath
  | .updated file => updateDetected file.path basePath (some file)

def Event.filePath : Event → Path
  | .created file | .updated file => file.path
  | .deleted filePath => filePath

namespace Message

def createTag : Bytes := utf8 "!_CREATE_!\n"
def deleteTag : Bytes := utf8 "!_DELETE_!\n"
def updateTag : Bytes := utf8 "!_UPDATE_!\n"

def tag : Message → Bytes
  | create _ _ => createTag
  | delete _ => deleteTag
  | update _ _ _ => updateTag

def pathBytes (path : Path) : Bytes := encodeInt 4 path.length ++ path

/-- What follows the tag. The size of an update is a `long`, that of a creation
an `int`. -/
def body : Message → Bytes
  | create path fileSize => pathBytes path ++ encodeInt 4 fileSize
  | delete path => pathBytes path
  | update fileSize path data => encodeInt 8 fileSize ++ (pathBytes path ++ data)

def bytes (m : Message) : Bytes := encodeInt 4 m.tag.length ++ (m.tag ++ m.body)

@[simp] theorem tag_length (m : Message) : m.tag.length = 11 := by
  cases m <;> rfl

end Message
end AdvancedCProjects.Bibak

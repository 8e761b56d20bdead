import AdvancedCProjects.Bibak.Contents
import AdvancedCProjects.Bibak.Created
import AdvancedCProjects.Bibak.Ends
import AdvancedCProjects.Bibak.Frames
import AdvancedCProjects.Bibak.Indices
import AdvancedCProjects.Bibak.Joiners
import AdvancedCProjects.Bibak.LastLink
import AdvancedCProjects.Bibak.Owners
import AdvancedCProjects.Bibak.Pool
import AdvancedCProjects.Bibak.Propagation
import AdvancedCProjects.Bibak.Receive
import AdvancedCProjects.Bibak.Removal
import AdvancedCProjects.Bibak.Snapshot
import AdvancedCProjects.Bibak.Stale
import AdvancedCProjects.Bibak.Startup
import AdvancedCProjects.Bibak.Update
import AdvancedCProjects.Bibak.Uploads
import AdvancedCProjects.Bibo.Conversation
import AdvancedCProjects.Bibo.Handshake
import AdvancedCProjects.Bibo.Kill
import AdvancedCProjects.Bibo.Leaving
import AdvancedCProjects.Bibo.Reading
import AdvancedCProjects.Bibo.Requests
import AdvancedCProjects.Bibo.Responses
import AdvancedCProjects.Bibo.Session
import AdvancedCProjects.Bibo.Texts
import AdvancedCProjects.Bibo.Waiting
import AdvancedCProjects.Copier.Buffer
import AdvancedCProjects.Copier.ByteTotal
import AdvancedCProjects.Copier.Capacity
import AdvancedCProjects.Copier.Copy
import AdvancedCProjects.Copier.Destinations
import AdvancedCProjects.Copier.FileTypes
import AdvancedCProjects.Copier.Memory
import AdvancedCProjects.Copier.Progress
import AdvancedCProjects.Copier.Shutdown
import AdvancedCProjects.Copier.TaskNames
import AdvancedCProjects.Copier.Totals
import AdvancedCProjects.Hw1.ExitStatus
import AdvancedCProjects.Hw1.MyDup
import AdvancedCProjects.Terminal.Execute
import AdvancedCProjects.Terminal.Input
import AdvancedCProjects.Terminal.Pipes
import AdvancedCProjects.Terminal.Printing
import AdvancedCProjects.Terminal.Tables
import AdvancedCProjects.Terminal.Wait

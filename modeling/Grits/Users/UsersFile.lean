import Grits.Library.Runs
import Grits.Library.SlashPath
import Mathlib.Data.Finset.Basic
import Mathlib.Logic.Function.Basic

/-!
# The users file

`sys/etc/users.jsonl` and the calls that change it: `AddUser` and
`createGuestUser` of `internal/gritsd/module_auth.go` and the command `deluser` of
`module_cmdline.go`.  Each reads the whole file and later writes the whole file;
`createUserMutex` is taken by the first two.
-/

namespace Grits

namespace Users

/-- What `addUserLocked` writes of a user. -/
structure UserRecord where
  username : GoString
  pwdHash : GoString
  deriving DecidableEq

/-- A line of the file, as `encoding/json` reads it. -/
inductive Line where
  | record (user : UserRecord)
  /-- A line that `json.Unmarshal` refuses. -/
  | malformed (text : GoString)
  deriving DecidableEq

/-- The record of a line. -/
def Line.record? : Line → Option UserRecord
  | .record user => some user
  | .malformed _ => none

/-- `existing` of `createGuestUser`. -/
def existing (lines : List Line) : List GoString := (lines.filterMap Line.record?).map (·.username)

/-- The records `addUserLocked` writes. -/
def recordsWith (lines : List Line) (user : UserRecord) : List Line :=
  (lines.filterMap Line.record? ++ [user]).map Line.record

/-- The records `deluser` writes. -/
def recordsWithout (lines : List Line) (username : GoString) : List Line :=
  ((lines.filterMap Line.record?).filter fun user => user.username ≠ username).map Line.record

/-- How far a call is. -/
inductive Call where
  /-- `AddUser`, before it has `createUserMutex`. -/
  | addCalled (user : UserRecord)
  /-- `createGuestUser`, before it has `createUserMutex`. -/
  | guestCalled
  /-- It has the mutex and has not read the file. -/
  | guestLocked
  /-- `addUserLocked`, before it reads the file. -/
  | addLocked (user : UserRecord)
  /-- `addUserLocked` has read the file and found no such user. -/
  | addRead (user : UserRecord) (lines : List Line)
  /-- The directories of the user are linked. -/
  | addHome (user : UserRecord) (lines : List Line)
  /-- The file is written; what is left is only logged when it fails. -/
  | addWritten
  /-- `deluser`, before it reads the file. -/
  | delCalled (username : GoString)
  /-- `deluser` has read the file. -/
  | delRead (username : GoString) (lines : List Line)

/-- The call has read the file and will write it. -/
def Call.Inside : Call → Prop
  | .addRead _ _ => True
  | .addHome _ _ => True
  | .delRead _ _ => True
  | _ => False

/-- The call holds `createUserMutex`. -/
def Call.Locked : Call → Prop
  | .guestLocked => True
  | .addLocked _ => True
  | .addRead _ _ => True
  | .addHome _ _ => True
  | .addWritten => True
  | _ => False

/-- A call that returned without an error. -/
inductive Event where
  | added (user : UserRecord)
  | deleted (username : GoString)
  deriving DecidableEq

/-- The file, the home directories and the calls under way.  `log` has what succeeded,
the last first, in the order in which the file was written. -/
structure Server where
  file : Option (List Line)
  homes : Finset GoString
  createUserMutex : Option ℕ
  calls : ℕ → Option Call
  log : List Event

/-- `ReadJSONL`, with a file that is not there read as an empty one. -/
def Server.lines (s : Server) : List Line := s.file.getD []

/-- The server after the call `id` went on to `call`. -/
def Server.goOn (s : Server) (id : ℕ) (call : Option Call) : Server :=
  { s with calls := Function.update s.calls id call }

/-- The steps of the calls. -/
inductive Step : Server → Server → Prop
  | call {s : Server} {id : ℕ} {call : Call} (hidle : s.calls id = none)
      (hstart : (∃ user, call = .addCalled user) ∨ call = .guestCalled ∨
        ∃ username, call = .delCalled username) : Step s (s.goOn id (some call))
  | lockAdd {s : Server} {id : ℕ} {user : UserRecord} (hcall : s.calls id = some (.addCalled user))
      (hfree : s.createUserMutex = none) :
      Step s ({ s with createUserMutex := some id }.goOn id (some (.addLocked user)))
  | lockGuest {s : Server} {id : ℕ} (hcall : s.calls id = some .guestCalled)
      (hfree : s.createUserMutex = none) :
      Step s ({ s with createUserMutex := some id }.goOn id (some .guestLocked))
  | nameGuest {s : Server} {id : ℕ} {name : GoString} (hcall : s.calls id = some .guestLocked)
      (hnew : name ∉ existing s.lines) : Step s (s.goOn id (some (.addLocked ⟨name, []⟩)))
  | readAdd {s : Server} {id : ℕ} {user : UserRecord} (hcall : s.calls id = some (.addLocked user))
      (hnew : user.username ∉ existing s.lines) :
      Step s (s.goOn id (some (.addRead user s.lines)))
  | alreadyExists {s : Server} {id : ℕ} {user : UserRecord}
      (hcall : s.calls id = some (.addLocked user)) (hold : user.username ∈ existing s.lines) :
      Step s ({ s with createUserMutex := none }.goOn id none)
  | linkHome {s : Server} {id : ℕ} {user : UserRecord} {lines : List Line}
      (hcall : s.calls id = some (.addRead user lines)) (hnew : user.username ∉ s.homes) :
      Step s ({ s with homes := insert user.username s.homes }.goOn id
        (some (.addHome user lines)))
  | writeAdd {s : Server} {id : ℕ} {user : UserRecord} {lines : List Line}
      (hcall : s.calls id = some (.addHome user lines)) :
      Step s ({ s with
        file := some (recordsWith lines user)
        log := .added user :: s.log }.goOn id (some .addWritten))
  /-- A read, a link or a write has failed, or all is done. -/
  | unlock {s : Server} {id : ℕ} {call : Call} (hcall : s.calls id = some call)
      (hlocked : call.Locked) : Step s ({ s with createUserMutex := none }.goOn id none)
  | readDel {s : Server} {id : ℕ} {username : GoString} {lines : List Line}
      (hcall : s.calls id = some (.delCalled username)) (hfile : s.file = some lines) :
      Step s (s.goOn id (some (.delRead username lines)))
  | writeDel {s : Server} {id : ℕ} {username : GoString} {lines : List Line}
      (hcall : s.calls id = some (.delRead username lines)) :
      Step s ({ s with
        file := some (recordsWithout lines username)
        log := .deleted username :: s.log }.goOn id none)
  | failDel {s : Server} {id : ℕ} {call : Call} (hcall : s.calls id = some call)
      (hdel : ∃ username, call = .delCalled username ∨ ∃ lines, call = .delRead username lines) :
      Step s (s.goOn id none)

/-- The users that were added and not deleted since, after what is in `log`. -/
def recorded : List Event → List UserRecord
  | [] => []
  | .added user :: log => recorded log ++ [user]
  | .deleted username :: log => (recorded log).filter fun user => user.username ≠ username

/-- No call is under way, and the file is as the calls so far should leave it. -/
structure Started (s : Server) : Prop where
  lines : s.lines = (recorded s.log).map .record
  nodup : ((recorded s.log).map (·.username)).Nodup
  calls : ∀ id, s.calls id = none

end Users

end Grits

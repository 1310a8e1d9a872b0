import Grits.Library.Register
import Grits.Library.Runs
import Grits.NameStore.MultiLink

/-!
# Shell tools that change a file

`append`, `allow` and `deny` of `client/lib`: each looks a file up, works out its new
content and links that, in requests of its own.  `allow` and `deny` change the
`access.json` of a directory, and create its `.grits` if a lookup does not find it.

The model follows one path.  A link that the server refuses for any other reason than
an assertion, a failed upload or a failed request ends the tool with an error.
-/

namespace Grits

namespace ShellTools

/-! ## The content of `access.json` -/

/-- A value of a property; of one that is neither a string nor a boolean, the JSON text. -/
inductive JsValue where
  | str (value : GoString)
  | bool (value : Bool)
  | other (text : GoString)
  deriving DecidableEq

/-- The own properties of an object. -/
abbrev JsObject := List (GoString × JsValue)

/-- The value of a property; `none` is `undefined`. -/
def JsObject.get (object : JsObject) (key : GoString) : Option JsValue :=
  (object.find? fun property => property.1 == key).map (·.2)

/-- `access.json`: its grants, and what else is in it. -/
structure AccessFile where
  allow : List JsObject
  rest : JsObject
  deriving DecidableEq

/-- `JSON` on the content of an `access.json`; `parse` is `none` where it throws, or where
`allow` is not a list of objects. -/
structure JsonText where
  parse : Bytes → Option AccessFile
  stringify : AccessFile → Bytes
  parse_stringify : ∀ cfg, parse (stringify cfg) = some cfg

/-! ## The arguments -/

/-- The value of the long name if there is one, otherwise of the short one. -/
def eitherOf (arg : JsObject) (short long : GoString) : Option JsValue :=
  (arg.get long).or (arg.get short)

/-- `normalizeSpec` of `allow`. -/
def normalizeSpec (spec : JsObject) : JsObject :=
  [("user".toList, eitherOf spec "u".toList "user".toList),
    ("all".toList, spec.get "all".toList),
    ("auth".toList, spec.get "auth".toList),
    ("origin".toList, eitherOf spec "o".toList "origin".toList),
    ("permission".toList, eitherOf spec "p".toList "permission".toList)].filterMap
      fun property => property.2.map fun value => (property.1, value)

/-- `getFilter` of `deny`. -/
def getFilter (spec : JsObject) : JsObject :=
  [("user".toList, eitherOf spec "u".toList "user".toList),
    ("origin".toList, eitherOf spec "o".toList "origin".toList)].filterMap
      fun property => property.2.map fun value => (property.1, value)

/-- The property is a string, if it is there. -/
def stringOrUndefined (arg : JsObject) (key : GoString) : Bool :=
  match arg.get key with
  | none => true
  | some (.str _) => true
  | some _ => false

/-- The property is a boolean, if it is there. -/
def boolOrUndefined (arg : JsObject) (key : GoString) : Bool :=
  match arg.get key with
  | none => true
  | some (.bool _) => true
  | some _ => false

/-- `SPEC_KEYS`. -/
def specKeys : List GoString :=
  ["u", "user", "all", "auth", "o", "origin", "p", "permission"].map String.toList

/-- `FILTER_KEYS`. -/
def filterKeys : List GoString := ["u", "user", "o", "origin"].map String.toList

/-- The checks of `allow`. -/
def validSpec (arg : JsObject) : Bool :=
  arg ≠ [] && (arg.all fun property => property.1 ∈ specKeys) &&
    boolOrUndefined arg "all".toList && boolOrUndefined arg "auth".toList &&
    ((["u", "user", "o", "origin", "p", "permission"].map String.toList).all
      (stringOrUndefined arg)) &&
    ((["u", "user", "all", "auth"].map String.toList).any fun key => (arg.get key).isSome) &&
    (eitherOf arg "o".toList "origin".toList).isSome &&
    (eitherOf arg "p".toList "permission".toList).isSome

/-- The checks of `deny`. -/
def validFilter (arg : JsObject) : Bool :=
  (arg.all fun property => property.1 ∈ filterKeys) && filterKeys.all (stringOrUndefined arg)

/-! ## What the tools make of a file -/

/-- The grant is for the principal of the spec. -/
def matchesSpec (spec grant : JsObject) : Bool :=
  (["user", "all", "auth", "origin"].map String.toList).all fun key =>
    spec.get key == none || grant.get key == spec.get key

/-- `grantMatchesFilter` of `deny`. -/
def grantMatchesFilter (grant filter : JsObject) : Bool :=
  (["user", "origin"].map String.toList).all fun key =>
    filter.get key == none || grant.get key == filter.get key

/-- `cfg.allow` after `allow`. -/
def allowGrant (spec : JsObject) (grants : List JsObject) : List JsObject :=
  match grants.findIdx? (matchesSpec spec) with
  | some idx => grants.set idx spec
  | none => grants ++ [spec]

/-- `cfg.allow` after `deny`; `none` is "grant not found". -/
def denyGrants (arg : JsObject) (grants : List JsObject) : Option (List JsObject) :=
  if arg = [] then some []
  else if grants.any fun grant => grantMatchesFilter grant (getFilter arg) then
    some (grants.filter fun grant => !grantMatchesFilter grant (getFilter arg))
  else none

/-- A tool with its argument. -/
inductive Tool where
  | append (content : Bytes)
  | allow (arg : JsObject)
  | deny (arg : JsObject)
  deriving DecidableEq

/-- What is at a path: the metadata address, the metadata and the content. -/
structure Entry where
  addr : BlobAddr
  metadata : GNodeMetadata
  data : Bytes
  deriving DecidableEq

/-- The `cfg` of `allow` and `deny`; `none` is an error. -/
def readAccess (J : JsonText) : Option Entry → Option AccessFile
  | none => some ⟨[], []⟩
  | some entry => J.parse entry.data

/-- The content a tool links, by what it finds at the path; `none` is an error. -/
def Tool.newContent (J : JsonText) : Tool → Option Entry → Option Bytes
  | .append content, none => some ([] ++ content)
  | .append content, some entry =>
      if entry.metadata.type = .directory then none else some (entry.data ++ content)
  | .allow arg, found =>
      if validSpec arg then
        (readAccess J found).map fun cfg =>
          J.stringify { cfg with allow := allowGrant (normalizeSpec arg) cfg.allow }
      else none
  | .deny arg, found =>
      if validFilter arg then
        (readAccess J found).bind fun cfg =>
          (denyGrants arg cfg.allow).map fun grants => J.stringify { cfg with allow := grants }
      else none

/-! ## Tools under way -/

/-- How far a tool is.  `version` is that of the path as the tool has seen it. -/
inductive Call where
  | called (tool : Tool)
  /-- `allow` or `deny` has read the file and not looked for `.grits`. -/
  | read (tool : Tool) (data : Bytes) (version : ℕ)
  /-- The new content is uploaded, and will be linked. -/
  | linking (tool : Tool) (data : Bytes) (version : ℕ)
  /-- `append`, once the path was found to be no file. -/
  | retrying (tool : Tool) (data : Bytes) (version : ℕ)
  deriving DecidableEq

/-- What a tool will link, and the version it has seen. -/
def Call.pending : Call → Option (Tool × Bytes × ℕ)
  | .called _ => none
  | .read tool data version => some (tool, data, version)
  | .linking tool data version => some (tool, data, version)
  | .retrying tool data version => some (tool, data, version)

/-- Where a tool goes on once it has the new content. -/
def Call.haveRead (tool : Tool) (data : Bytes) (version : ℕ) : Call :=
  match tool with
  | .append _ => .linking tool data version
  | _ => .read tool data version

/-- The path on the server and the clients that use it.  `views` is what the clients have
in their caches, `log` what has succeeded, the last one first. -/
structure Server where
  path : GoString
  node : Register (Option Entry)
  views : ℕ → Option (Register (Option Entry))
  calls : ℕ → Option Call
  log : List Tool

/-- The server after the tool of client `id` went on to `call`. -/
def Server.goOn (s : Server) (id : ℕ) (call : Option Call) : Server :=
  { s with calls := Function.update s.calls id call }

/-- The server after the tool of client `id` has succeeded. -/
def Server.linked (s : Server) (id : ℕ) (tool : Tool) (entry : Entry) : Server :=
  { s with node := s.node.write (some entry), log := tool :: s.log }.goOn id none

/-- The file that `mkfile` describes. -/
def IsFile (entry : Entry) (data : Bytes) : Prop :=
  entry.addr ≠ [] ∧ entry.metadata.type = .file ∧ entry.data = data

/-- The assertions of a link to the path hold. -/
def Server.holds (s : Server) (newAddr prevAddr : BlobAddr) (flags : UInt32) : Bool :=
  assertionsHold ⟨s.path, newAddr, prevAddr, flags⟩
    (s.node.value.map fun entry => (entry.addr, entry.metadata))

/-- The steps of client `id`. -/
inductive Step (J : JsonText) (id : ℕ) : Server → Server → Prop
  | call {s : Server} {tool : Tool} (hidle : s.calls id = none) :
      Step J id s (s.goOn id (some (.called tool)))
  /-- Something the client looks up or links refreshes its caches. -/
  | look {s : Server} : Step J id s { s with views := Function.update s.views id (some s.node) }
  | read {s : Server} {tool : Tool} {copy : Register (Option Entry)} {data : Bytes}
      (hcall : s.calls id = some (.called tool)) (hcopy : copy = s.node ∨ s.views id = some copy)
      (hdata : tool.newContent J copy.value = some data) :
      Step J id s (s.goOn id (some (.haveRead tool data copy.version)))
  /-- The content of what was in the cache is gone.  The error says "not found" too. -/
  | readGone {s : Server} {tool : Tool} {copy : Register (Option Entry)} {data : Bytes}
      (hcall : s.calls id = some (.called tool)) (hcopy : s.views id = some copy)
      (hold : copy.version < s.node.version) (hdata : tool.newContent J none = some data) :
      Step J id s (s.goOn id (some (.haveRead tool data copy.version)))
  /-- The lookup of `.grits` succeeds. -/
  | haveDir {s : Server} {tool : Tool} {data : Bytes} {version : ℕ}
      (hcall : s.calls id = some (.read tool data version)) :
      Step J id s (s.goOn id (some (.linking tool data version)))
  /-- The lookup of `.grits` fails, and an empty directory is linked there. -/
  | makeDir {s : Server} {tool : Tool} {data : Bytes} {version : ℕ}
      (hcall : s.calls id = some (.read tool data version)) :
      Step J id s ({ s with node := s.node.write none }.goOn id
        (some (.linking tool data (s.node.version + 1))))
  | linkAppend {s : Server} {content data : Bytes} {version : ℕ} {entry : Entry}
      (hcall : s.calls id = some (.linking (.append content) data version))
      (hentry : IsFile entry data) (hholds : s.holds entry.addr [] assertIsBlob = true) :
      Step J id s (s.linked id (.append content) entry)
  | appendRefused {s : Server} {content data : Bytes} {version : ℕ} {entry : Entry}
      (hcall : s.calls id = some (.linking (.append content) data version))
      (hentry : IsFile entry data) (hholds : s.holds entry.addr [] assertIsBlob = false) :
      Step J id s (s.goOn id (some (.retrying (.append content) data version)))
  | linkNew {s : Server} {tool : Tool} {data : Bytes} {version : ℕ} {entry : Entry}
      (hcall : s.calls id = some (.retrying tool data version)) (hentry : IsFile entry data)
      (hholds : s.holds entry.addr [] assertPrevValueMatches = true) :
      Step J id s (s.linked id tool entry)
  | linkAccess {s : Server} {tool : Tool} {data : Bytes} {version : ℕ} {entry : Entry}
      (hcall : s.calls id = some (.linking tool data version))
      (htool : ∀ content, tool ≠ .append content) (hentry : IsFile entry data)
      (hholds : s.holds entry.addr [] 0 = true) : Step J id s (s.linked id tool entry)
  | fail {s : Server} {call : Call} (hcall : s.calls id = some call) :
      Step J id s (s.goOn id none)

/-- Nobody uses the path, which has this node; the caches have what was there before. -/
structure Started (start : Option Entry) (s : Server) : Prop where
  node : s.node.value = start
  views : ∀ id copy, s.views id = some copy → s.node.Copy copy
  calls : ∀ id, s.calls id = none
  log : s.log = []

end ShellTools

end Grits

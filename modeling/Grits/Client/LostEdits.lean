import Grits.Client.ShellTools
import Grits.NameStore.TableEncoding

/-!
# Which edits survive

Neither `append` nor `allow` and `deny` assert, with the link, that the path is still as
they have read it.  An edit survives if it is made from what is there.
-/

namespace Grits

namespace ShellTools

open Runs Register

variable {J : JsonText} {start : Option Entry} {s t : Server} {past : List Server} {id : ℕ}

/-! ## What the edits amount to -/

/-- A tool takes what is at the path to the file with its new content. -/
def Tool.Changes (J : JsonText) (tool : Tool) (before after : Option Entry) : Prop :=
  ∃ data entry, tool.newContent J before = some data ∧ after = some entry ∧ IsFile entry data

/-- The bytes at the path. -/
def bytesOf (found : Option Entry) : Bytes :=
  match found with
  | none => []
  | some entry => entry.data

/-- The text a tool appends. -/
def Tool.text : Tool → Bytes
  | .append content => content
  | _ => []

/-- The grants after a tool. -/
def Tool.grantsAfter (tool : Tool) (grants : List JsObject) : List JsObject :=
  match tool with
  | .append _ => grants
  | .allow arg => allowGrant (normalizeSpec arg) grants
  | .deny arg => (denyGrants arg grants).getD grants

/-- The path reflects the tools that have succeeded: it has what they make of the entry
`start`, one after another.  Of appended texts it has each, in this order; of grants it
has those that the tools leave. -/
structure Reflects (J : JsonText) (start : Option Entry) (s : Server) : Prop where
  serial : Replayed (Tool.Changes J) start s.log s.node.value
  texts : (∀ tool ∈ s.log, ∃ content, tool = .append content) →
    bytesOf s.node.value = bytesOf start ++ (s.log.reverse.map Tool.text).flatten
  grants : ∀ cfg, readAccess J start = some cfg →
    (∀ tool ∈ s.log, ∀ content, tool ≠ .append content) →
    ∃ cfg', readAccess J s.node.value = some cfg' ∧
      cfg'.allow = s.log.foldr Tool.grantsAfter cfg.allow

theorem Tool.Changes.bytesOf_append {content : Bytes} {before after : Option Entry}
    (h : (Tool.append content).Changes J before after) :
    bytesOf after = bytesOf before ++ content := by
  obtain ⟨data, entry, hdata, rfl, -, -, hentry⟩ := h
  cases before with
  | none =>
      rw [newContent, Option.some.injEq] at hdata
      change entry.data = [] ++ content
      rw [hentry, hdata]
  | some found =>
      rw [newContent] at hdata
      split at hdata
      next => cases hdata
      next =>
        rw [Option.some.injEq] at hdata
        change entry.data = found.data ++ content
        rw [hentry, hdata]

theorem Tool.Changes.readAccess {tool : Tool} {before after : Option Entry}
    (h : tool.Changes J before after) (htool : ∀ content, tool ≠ .append content)
    {cfg : AccessFile} (hcfg : readAccess J before = some cfg) :
    ∃ cfg', ShellTools.readAccess J after = some cfg' ∧
      cfg'.allow = tool.grantsAfter cfg.allow := by
  obtain ⟨data, entry, hdata, rfl, -, -, hentry⟩ := h
  cases tool with
  | append content => exact absurd rfl (htool content)
  | allow arg =>
      rw [newContent, hcfg] at hdata
      split at hdata
      next =>
        rw [Option.map_some, Option.some.injEq] at hdata
        refine ⟨{ cfg with allow := allowGrant (normalizeSpec arg) cfg.allow }, ?_, rfl⟩
        rw [ShellTools.readAccess, hentry, ← hdata, J.parse_stringify]
      next => cases hdata
  | deny arg =>
      rw [newContent, hcfg] at hdata
      split at hdata
      next =>
        rw [Option.bind_some, Option.map_eq_some_iff] at hdata
        obtain ⟨grants, hgrants, hstringify⟩ := hdata
        refine ⟨{ cfg with allow := grants }, ?_, ?_⟩
        · rw [ShellTools.readAccess, hentry, ← hstringify, J.parse_stringify]
        · rw [grantsAfter, hgrants]
          rfl
      next => cases hdata

/-- Whatever the edits lead to, one after another, reflects them. -/
theorem reflects_of_replayed (h : Replayed (Tool.Changes J) start s.log s.node.value) :
    Reflects J start s where
  serial := h
  texts := by
    refine h.carried (I := fun log value => (∀ tool ∈ log, ∃ content, tool = .append content) →
      bytesOf value = bytesOf start ++ (log.reverse.map Tool.text).flatten) ?_ ?_
    · intro _
      simp
    · intro log tool before after ih hchange hall
      obtain ⟨content, rfl⟩ := hall tool List.mem_cons_self
      have hbefore := ih fun other hother => hall other (List.mem_cons_of_mem _ hother)
      rw [hchange.bytesOf_append, hbefore]
      simp [Tool.text]
  grants := by
    intro cfg hcfg
    refine h.carried (I := fun log value => (∀ tool ∈ log, ∀ content, tool ≠ .append content) →
      ∃ cfg', readAccess J value = some cfg' ∧ cfg'.allow = log.foldr Tool.grantsAfter cfg.allow)
      (fun _ => ⟨cfg, hcfg, rfl⟩) ?_
    intro log tool before after ih hchange hall
    obtain ⟨found, hfound, hgrants⟩ :=
      ih fun other hother => hall other (List.mem_cons_of_mem _ hother)
    obtain ⟨cfg', hcfg', hafter⟩ := hchange.readAccess (hall tool List.mem_cons_self) hfound
    exact ⟨cfg', hcfg', by rw [hafter, hgrants, List.foldr_cons]⟩

/-! ## Grants that are added and removed -/

/-- After `allow` the spec is among the grants. -/
theorem mem_allowGrant (spec : JsObject) (grants : List JsObject) :
    spec ∈ allowGrant spec grants := by
  rw [allowGrant]
  split
  next idx hidx =>
    rw [List.findIdx?_eq_some_iff_getElem] at hidx
    exact List.mem_set hidx.1 spec
  next => simp

/-- Other grants than the one that is replaced stay. -/
theorem mem_allowGrant_of_mem {spec grant : JsObject} {grants : List JsObject}
    (h : grant ∈ grants) (hother : matchesSpec spec grant = false) :
    grant ∈ allowGrant spec grants := by
  rw [allowGrant]
  split
  next idx hidx =>
    rw [List.findIdx?_eq_some_iff_getElem] at hidx
    obtain ⟨hlt, hmatches, -⟩ := hidx
    obtain ⟨i, hi, rfl⟩ := List.mem_iff_getElem.mp h
    have hne : idx ≠ i := by
      rintro rfl
      rw [hother] at hmatches
      cases hmatches
    refine List.mem_iff_getElem.mpr ⟨i, by simpa using hi, ?_⟩
    rw [List.getElem_set_ne hne]
  next => exact List.mem_append_left _ h

/-- After `deny` no grant is left that its filter matches, and every other one is. -/
theorem mem_denyGrants {arg grant : JsObject} {grants left : List JsObject}
    (h : denyGrants arg grants = some left) (harg : arg ≠ []) :
    grant ∈ left ↔ grant ∈ grants ∧ grantMatchesFilter grant (getFilter arg) = false := by
  rw [denyGrants, if_neg harg] at h
  split at h
  next =>
    rw [← Option.some.inj h, List.mem_filter, Bool.not_eq_true']
  next => cases h

/-! ## Runs without a race -/

/-- The tool of a client has seen what is at the path now. -/
def Server.UpToDate (s : Server) (id : ℕ) : Prop :=
  ∃ call tool data, s.calls id = some call ∧ call.pending = some (tool, data, s.node.version)

/-- A step of some client.  Whoever links has seen what is there now; an empty `.grits` is
linked only where there is no `access.json`. -/
def CarefulStep (J : JsonText) (s t : Server) : Prop :=
  ∃ id, Step J id s t ∧
    (t.node ≠ s.node → s.UpToDate id ∧ (t.node.value = none → s.node.value = none))

/-- What a tool is about to link is made from what it has seen. -/
def Call.Made (J : JsonText) (node : Register (Option Entry)) (call : Call) : Prop :=
  ∀ tool data version, call.pending = some (tool, data, version) →
    node.Known version fun found => tool.newContent J found = some data

/-- The invariant of a run. -/
structure Current (J : JsonText) (start : Option Entry) (s : Server) : Prop where
  serial : Replayed (Tool.Changes J) start s.log s.node.value
  views : ∀ id copy, s.views id = some copy → s.node.Copy copy
  calls : ∀ id call, s.calls id = some call → call.Made J s.node

theorem goOn_calls_self (s : Server) (id : ℕ) (call : Option Call) :
    (s.goOn id call).calls id = call := Function.update_self ..

theorem goOn_calls_of_ne (s : Server) {other : ℕ} (h : other ≠ id) (call : Option Call) :
    (s.goOn id call).calls other = s.calls other := Function.update_of_ne h ..

/-- The calls after one of them went on. -/
theorem forall_goOn {next : Option Call} {P : Call → Prop}
    (hself : ∀ call, next = some call → P call)
    (hothers : ∀ other call, s.calls other = some call → P call) :
    ∀ other call, (s.goOn id next).calls other = some call → P call := by
  intro other call hcall
  by_cases h : other = id
  · subst h
    rw [goOn_calls_self] at hcall
    exact hself call hcall
  · rw [goOn_calls_of_ne s h] at hcall
    exact hothers other call hcall

theorem Call.Made.write {node : Register (Option Entry)} {call : Call} (h : call.Made J node)
    (value : Option Entry) : call.Made J (node.write value) :=
  fun tool data version hpending => (h tool data version hpending).write value

theorem made_of_pending {node : Register (Option Entry)} {call : Call} {tool : Tool}
    {data : Bytes} {version : ℕ} (hpending : call.pending = some (tool, data, version))
    (h : node.Known version fun found => tool.newContent J found = some data) :
    call.Made J node := by
  intro tool' data' version' hpending'
  rw [hpending] at hpending'
  cases hpending'
  exact h

theorem pending_haveRead (tool : Tool) (data : Bytes) (version : ℕ) :
    (Call.haveRead tool data version).pending = some (tool, data, version) := by
  cases tool with
  | append content => rfl
  | allow arg => rfl
  | deny arg => rfl

/-- A step that leaves the path alone. -/
theorem Current.keep (h : Current J start s) {next : Option Call}
    (hnext : ∀ call, next = some call → call.Made J s.node) :
    Current J start (s.goOn id next) where
  serial := h.serial
  views := h.views
  calls := forall_goOn hnext h.calls

/-- A tool that is up to date links its file. -/
theorem Current.linked (h : Current J start s) {tool : Tool} {data : Bytes} {entry : Entry}
    (hdata : tool.newContent J s.node.value = some data) (hentry : IsFile entry data) :
    Current J start (s.linked id tool entry) where
  serial := .cons h.serial ⟨data, entry, hdata, rfl, hentry⟩
  views := fun other copy hcopy => (h.views other copy hcopy).write _
  calls := forall_goOn (fun _ hnone => by cases hnone)
    fun other call hcall => (h.calls other call hcall).write _

/-- What a tool that is up to date has worked out is right. -/
theorem Current.newContent (h : Current J start s) {call : Call} {tool : Tool} {data : Bytes}
    {version : ℕ} (hcall : s.calls id = some call)
    (hpending : call.pending = some (tool, data, version)) (hupToDate : s.UpToDate id) :
    tool.newContent J s.node.value = some data := by
  obtain ⟨call', tool', data', hcall', hcurrent⟩ := hupToDate
  rw [hcall, Option.some.injEq] at hcall'
  subst hcall'
  rw [hpending, Option.some.injEq, Prod.mk.injEq, Prod.mk.injEq] at hcurrent
  obtain ⟨rfl, rfl, rfl⟩ := hcurrent
  exact (h.calls id call hcall tool data _ hpending).current

theorem Current.look (h : Current J start s) :
    Current J start { s with views := Function.update s.views id (some s.node) } where
  serial := h.serial
  views := by
    intro other copy hcopy
    by_cases hother : other = id
    · subst hother
      have hview := (Function.update_self other (some s.node) s.views).symm.trans hcopy
      cases hview
      exact .refl s.node
    · have hview := (Function.update_of_ne hother (some s.node) s.views).symm.trans hcopy
      exact h.views other copy hview
  calls := h.calls

/-- An empty `.grits` is linked where there was no `access.json`. -/
theorem Current.makeDir (h : Current J start s) {tool : Tool} {data : Bytes}
    (hdata : tool.newContent J s.node.value = some data) (habsent : s.node.value = none) :
    Current J start ({ s with node := s.node.write none }.goOn id
      (some (.linking tool data (s.node.version + 1)))) where
  serial := by
    have hserial := h.serial
    rw [habsent] at hserial
    exact hserial
  views := fun other copy hcopy => (h.views other copy hcopy).write _
  calls := by
    refine forall_goOn ?_ fun other call hother => (h.calls other call hother).write _
    rintro _ ⟨⟩
    rw [habsent] at hdata
    exact made_of_pending rfl (.inr ⟨rfl, hdata⟩)

theorem Current.step (h : Current J start s) (hstep : CarefulStep J s t) : Current J start t := by
  obtain ⟨id, hstep, hcareful⟩ := hstep
  cases hstep with
  | call hidle =>
      refine h.keep ?_
      rintro _ ⟨⟩ tool data version hnone
      cases hnone
  | look => exact h.look
  | read hcall hcopy hdata =>
      refine h.keep ?_
      rintro _ ⟨⟩
      refine made_of_pending (pending_haveRead _ _ _) ?_
      rcases hcopy with rfl | hview
      · exact (Copy.refl s.node).known hdata
      · exact (h.views _ _ hview).known hdata
  | readGone hcall hcopy hold hdata =>
      refine h.keep ?_
      rintro _ ⟨⟩
      exact made_of_pending (pending_haveRead _ _ _) (.inl hold)
  | haveDir hcall =>
      have hmade := h.calls id _ hcall
      refine h.keep ?_
      rintro _ ⟨⟩
      exact made_of_pending rfl (hmade _ _ _ rfl)
  | makeDir hcall =>
      obtain ⟨hupToDate, hnone⟩ := hcareful (write_ne _ _)
      exact h.makeDir (h.newContent hcall rfl hupToDate) (hnone rfl)
  | linkAppend hcall hentry hholds =>
      have hupToDate := (hcareful (write_ne _ _)).1
      exact h.linked (h.newContent hcall rfl hupToDate) hentry
  | appendRefused hcall hentry hholds =>
      have hmade := h.calls id _ hcall
      refine h.keep ?_
      rintro _ ⟨⟩
      exact made_of_pending rfl (hmade _ _ _ rfl)
  | linkNew hcall hentry hholds =>
      have hupToDate := (hcareful (write_ne _ _)).1
      exact h.linked (h.newContent hcall rfl hupToDate) hentry
  | linkAccess hcall htool hentry hholds =>
      have hupToDate := (hcareful (write_ne _ _)).1
      exact h.linked (h.newContent hcall rfl hupToDate) hentry
  | fail hcall => exact h.keep fun _ hnone => by cases hnone

theorem started_current (h : Started start s) : Current J start s where
  serial := by
    rw [h.log, h.node]
    exact .nil
  views := h.views
  calls := by
    intro id call hcall
    rw [h.calls] at hcall
    cases hcall

/-- Where every tool that links has seen what is there, all that have succeeded are
reflected. -/
theorem tools_reflected (h : Run (Started start) (CarefulStep J) past s) : Reflects J start s :=
  reflects_of_replayed
    (h.invariant (fun _ => started_current) (fun _ _ => Current.step)).serial

/-! ### Two runs -/

instance : Encodable JsValue :=
  Encodable.ofLeftInverse
    (fun value => match value with
      | .str value => (Sum.inl value : GoString ⊕ Bool ⊕ GoString)
      | .bool value => .inr (.inl value)
      | .other text => .inr (.inr text))
    (fun value => match value with
      | .inl value => .str value
      | .inr (.inl value) => .bool value
      | .inr (.inr text) => .other text)
    fun value => by cases value <;> rfl

instance : Encodable AccessFile :=
  Encodable.ofLeftInverse (fun cfg => (cfg.allow, cfg.rest)) (fun parts => ⟨parts.1, parts.2⟩)
    fun _ => rfl

/-- A text for every `access.json`; tools that only append write none of them. -/
def numberedText : JsonText where
  parse data := Encodable.decode data.length
  stringify cfg := List.replicate (Encodable.encode cfg) 0
  parse_stringify := by
    intro cfg
    rw [List.length_replicate, Encodable.encodek]

/-- A file with this content. -/
def fileWith (data : Bytes) : Entry :=
  ⟨"Qm".toList, ⟨.file, Int64.ofNat data.length, "Qm".toList, 0o644, Table.timestamp⟩, data⟩

theorem isFile_fileWith (data : Bytes) : IsFile (fileWith data) data := by
  refine ⟨?_, rfl, rfl⟩
  show "Qm".toList ≠ []
  decide

/-- A server with this file, in use by nobody. -/
def serverWith (data : Bytes) : Server :=
  ⟨"x".toList, ⟨some (fileWith data), 0⟩, fun _ => none, fun _ => none, []⟩

theorem started_serverWith (data : Bytes) : Started (some (fileWith data)) (serverWith data) where
  node := rfl
  views := by
    rintro id copy ⟨⟩
  calls := fun _ => rfl
  log := rfl

/-- A step that leaves the path alone is careful. -/
theorem carefulStep_of_node (hstep : Step J id s t) (hnode : t.node = s.node) :
    CarefulStep J s t := ⟨id, hstep, fun hne => absurd hnode hne⟩

/-- `append` alone. -/
theorem tools_reflected_append :
    ∃ past s, Run (Started (some (fileWith [97]))) (CarefulStep numberedText) past s ∧
      bytesOf s.node.value = [97, 98] ∧ Reflects numberedText (some (fileWith [97])) s := by
  have hstart : Run _ (CarefulStep numberedText) [] (serverWith [97]) :=
    .start (started_serverWith [97])
  have hcalled := hstart.step
    (carefulStep_of_node (@Step.call _ 0 _ (.append [98]) rfl) rfl)
  have hread := hcalled.step (carefulStep_of_node
    (@Step.read _ 0 _ (.append [98]) ⟨some (fileWith [97]), 0⟩ _ rfl (.inl rfl) rfl) rfl)
  have hlinked := hread.step
    ⟨0, @Step.linkAppend _ 0 _ [98] [97, 98] 0 (fileWith [97, 98]) rfl (isFile_fileWith _)
      (by decide +kernel), fun _ => ⟨⟨_, _, _, rfl, rfl⟩, by rintro ⟨⟩⟩⟩
  exact ⟨_, _, hlinked, rfl, tools_reflected hlinked⟩

/-- Two clients read the file, and both append to what they have read. -/
theorem tools_lostUpdate :
    ∃ past s, Run (Started (some (fileWith [97]))) (fun s t => ∃ id, Step numberedText id s t)
        past s ∧
      (∀ id, s.calls id = none) ∧ s.log = [.append [99], .append [98]] ∧
      ¬ Reflects numberedText (some (fileWith [97])) s := by
  have hstart : Run _ (fun s t => ∃ id, Step numberedText id s t) [] (serverWith [97]) :=
    .start (started_serverWith [97])
  have hcalled := hstart.step ⟨0, @Step.call _ 0 _ (.append [98]) rfl⟩
  have hboth := hcalled.step ⟨1, @Step.call _ 1 _ (.append [99]) rfl⟩
  have hread := hboth.step
    ⟨0, @Step.read _ 0 _ (.append [98]) ⟨some (fileWith [97]), 0⟩ _ rfl (.inl rfl) rfl⟩
  have hreads := hread.step
    ⟨1, @Step.read _ 1 _ (.append [99]) ⟨some (fileWith [97]), 0⟩ _ rfl (.inl rfl) rfl⟩
  have hlinked := hreads.step
    ⟨0, @Step.linkAppend _ 0 _ [98] [97, 98] 0 (fileWith [97, 98]) rfl (isFile_fileWith _)
      (by decide +kernel)⟩
  have hlinks := hlinked.step
    ⟨1, @Step.linkAppend _ 1 _ [99] [97, 99] 0 (fileWith [97, 99]) rfl (isFile_fileWith _)
      (by decide +kernel)⟩
  refine ⟨_, _, hlinks, fun id => ?_, rfl, fun hreflects => ?_⟩
  · by_cases h0 : id = 0
    · subst h0
      rfl
    · by_cases h1 : id = 1
      · subst h1
        rfl
      · simp [Server.linked, Server.goOn, Function.update_of_ne, h0, h1, serverWith]
  · have htexts := hreflects.texts fun tool htool => by
      rcases List.mem_cons.mp htool with rfl | htool
      · exact ⟨_, rfl⟩
      · exact ⟨_, List.mem_singleton.mp htool⟩
    exact absurd htexts (by decide +kernel)

end ShellTools

end Grits

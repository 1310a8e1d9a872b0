import Grits.LocalVolume.Persistence
import Grits.NameStore.Volume

/-!
# What a volume writes to its file

As long as no link commits between the two reads of a `save`, every state in the
file is one the name store had, the serial numbers only go up, and a link whose
`save` succeeds finds its own commit in the file or a later one.
-/

namespace Grits

open Prog Runs

variable {E : Env} {v w : LocalVolume} {past : List LocalVolume}

/-- No link commits while a `save` has read the root and not yet the serial number. -/
def ReadsTogether (v w : LocalVolume) : Prop :=
  ∀ id own root, v.calls id = some (.rootRead own root) →
    w.ns.serialNumber = v.ns.serialNumber

/-- A step in which both reads of every `save` see the same root. -/
def TogetherStep (E : Env) (v w : LocalVolume) : Prop := VolumeStep E v w ∧ ReadsTogether v w

/-- The name store had this root and serial number. -/
def Had (past : List LocalVolume) (v : LocalVolume) (pair : BlobAddr × ℤ) : Prop :=
  ∃ u ∈ v :: past, u.ns.pair = pair

/-- What the file of a volume may say. -/
structure Atomic (E : Env) (past : List LocalVolume) (v : LocalVolume) : Prop where
  /-- The name store had what the file says. -/
  had : ∀ state, v.file = some state → Had past v state.pair
  /-- What was written before has no higher serial number. -/
  ordered : ∀ u ∈ past, ∀ before, u.file = some before →
    ∃ state, v.file = some state ∧ before.serialNumber ≤ state.serialNumber
  /-- A link that returns after its `save` finds its own commit or a later one. -/
  latest : ∀ id own, v.calls id = some (.saved (some own)) →
    ∃ state, v.file = some state ∧ (state.pair = own ∨ own.2 < state.serialNumber)
  /-- Loading the file gives the name store this root and serial number. -/
  reloads : ∀ blobs t, ProperBlobs E.toEncoding blobs →
    newLocalVolume E blobs v.file = (.ok (), t) →
      ∀ state, v.file = some state → t.pair = state.pair

/-! ## The invariant -/

/-- The commit of a call was made, and is no later than `serialNumber`. -/
def OwnBy (past : List LocalVolume) (v : LocalVolume) (own : Option (BlobAddr × ℤ))
    (serialNumber : ℤ) : Prop :=
  ∀ pair, own = some pair → Had past v pair ∧ pair.2 ≤ serialNumber

/-- The state a call is about to write. -/
structure Pending (past : List LocalVolume) (v : LocalVolume) (own : Option (BlobAddr × ℤ))
    (state : RootState) : Prop where
  had : Had past v state.pair
  own : OwnBy past v own state.serialNumber
  later : ∀ before, v.file = some before → before.serialNumber ≤ state.serialNumber

/-- What a call of `save` has found so far. -/
def SaveCall.Found (past : List LocalVolume) (v : LocalVolume) : SaveCall → Prop
  | .called own => OwnBy past v own v.ns.serialNumber
  | .locked own => OwnBy past v own v.ns.serialNumber
  | .rootRead own root => OwnBy past v own v.ns.serialNumber ∧ root = v.ns.rootAddr
  | .stateRead own state => Pending past v own state
  | .written own state => Pending past v own state ∧ v.tempFile = some state
  | .saved own => ∃ state, v.file = some state ∧ OwnBy past v own state.serialNumber

/-- The invariant of a run. -/
structure Recorded (E : Env) (past : List LocalVolume) (v : LocalVolume) : Prop where
  accounts : ∃ extra, Accounts E.toEncoding extra v.holders v.ns
  exclusive : Exclusive v
  unique : ∀ pair pair', Had past v pair → Had past v pair' → pair.2 = pair'.2 → pair = pair'
  upTo : ∀ pair, Had past v pair → pair.2 ≤ v.ns.serialNumber
  file : ∀ state, v.file = some state → Had past v state.pair
  calls : ∀ id call, v.calls id = some call → call.Found past v

theorem Had.cons {pair : BlobAddr × ℤ} (h : Had past v pair) : Had (v :: past) w pair := by
  obtain ⟨u, hu, hpair⟩ := h
  exact ⟨u, List.mem_cons_of_mem w hu, hpair⟩

theorem had_now (past : List LocalVolume) (v : LocalVolume) : Had past v v.ns.pair :=
  ⟨v, List.mem_cons_self, rfl⟩

theorem had_cons_iff {pair : BlobAddr × ℤ} :
    Had (v :: past) w pair ↔ w.ns.pair = pair ∨ Had past v pair := by
  constructor
  · rintro ⟨u, hu, hpair⟩
    rcases List.mem_cons.mp hu with rfl | hu
    · exact .inl hpair
    · exact .inr ⟨u, hu, hpair⟩
  · rintro (hpair | h)
    · exact ⟨w, List.mem_cons_self, hpair⟩
    · exact h.cons

theorem OwnBy.cons {own : Option (BlobAddr × ℤ)} {n n' : ℤ} (h : OwnBy past v own n)
    (hle : n ≤ n') : OwnBy (v :: past) w own n' := by
  intro pair hpair
  obtain ⟨hhad, hpn⟩ := h pair hpair
  exact ⟨hhad.cons, hpn.trans hle⟩

theorem Pending.cons {own : Option (BlobAddr × ℤ)} {state : RootState}
    (h : Pending past v own state) (hfile : w.file = v.file) :
    Pending (v :: past) w own state where
  had := h.had.cons
  own := h.own.cons le_rfl
  later := by
    rw [hfile]
    exact h.later

/-- The file is only ever replaced by a later state. -/
def FileAdvances (v w : LocalVolume) : Prop :=
  ∀ before, v.file = some before →
    ∃ state, w.file = some state ∧ before.serialNumber ≤ state.serialNumber

theorem FileAdvances.of_eq (h : w.file = v.file) : FileAdvances v w :=
  fun before hbefore => ⟨before, h.trans hbefore, le_rfl⟩

/-- What another call has found it still has after a step. -/
theorem SaveCall.Found.cons {call : SaveCall} (h : call.Found past v)
    (hns : Advances v.ns w.ns)
    (hroot : ∀ own root, call = .rootRead own root → w.ns.serialNumber = v.ns.serialNumber)
    (hfiles : call.Holds → w.file = v.file ∧ w.tempFile = v.tempFile) (hfile : FileAdvances v w) :
    call.Found (v :: past) w := by
  cases call with
  | called own => exact OwnBy.cons h hns.le
  | locked own => exact OwnBy.cons h hns.le
  | rootRead own root =>
      obtain ⟨hown, rfl⟩ := h
      refine ⟨hown.cons hns.le, ?_⟩
      have hserial := hroot own _ rfl
      rcases hns with hpair | hserial'
      · exact (congrArg Prod.fst hpair).symm
      · omega
  | stateRead own state => exact Pending.cons h (hfiles trivial).1
  | written own state =>
      obtain ⟨hpending, htemp⟩ := h
      exact ⟨hpending.cons (hfiles trivial).1, (hfiles trivial).2.trans htemp⟩
  | saved own =>
      obtain ⟨state, hstate, hown⟩ := h
      obtain ⟨state', hstate', hle⟩ := hfile state hstate
      exact ⟨state', hstate', hown.cons hle⟩

/-- The name store and the file after a step. -/
structure StepFacts (E : Env) (past : List LocalVolume) (v w : LocalVolume) : Prop where
  file : ∀ state, w.file = some state → Had (v :: past) w state.pair
  advances : FileAdvances v w
  calls : ∀ id call, w.calls id = some call → call.Found (v :: past) w

theorem Recorded.step_facts (h : Recorded E past v) (hns : Advances v.ns w.ns)
    (hstep : VolumeStep E v w) (htogether : ReadsTogether v w) : StepFacts E past v w := by
  -- the other calls, where the step leaves the files alone
  have hothers : w.file = v.file → w.tempFile = v.tempFile →
      ∀ id call, v.calls id = some call → call.Found (v :: past) w := by
    intro hfile htemp id call hcall
    refine (h.calls id call hcall).cons hns ?_ (fun _ => ⟨hfile, htemp⟩) (.of_eq hfile)
    rintro own root rfl
    exact htogether id own root hcall
  have hfile : w.file = v.file → ∀ state, w.file = some state → Had (v :: past) w state.pair := by
    intro hfile state hstate
    rw [hfile] at hstate
    exact (h.file state hstate).cons
  -- the other calls, where the call that makes the step is inside `save`
  have hinside : ∀ {id : ℕ} {call : SaveCall}, v.calls id = some call → call.Holds →
      FileAdvances v w → ∀ other c, other ≠ id → v.calls other = some c →
        c.Found (v :: past) w := by
    intro id call hcall hholds hadvances other c hne hother
    have hout := h.exclusive.not_holds hcall hholds hne hother
    refine (h.calls other c hother).cons hns ?_ (fun hin => absurd hin hout) hadvances
    rintro own root rfl
    exact absurd trivial hout
  cases hstep with
  | link hidle hH hrun =>
      refine ⟨hfile rfl, .of_eq rfl, forall_goOn ?_ fun other c _ => hothers rfl rfl other c⟩
      rintro _ ⟨⟩ pair ⟨⟩
      exact ⟨had_now _ _, le_rfl⟩
  | linkFailed hH hrun => exact ⟨hfile rfl, .of_eq rfl, hothers rfl rfl⟩
  | serve hserved => exact ⟨hfile rfl, .of_eq rfl, hothers rfl rfl⟩
  | cleanup hrun => exact ⟨hfile rfl, .of_eq rfl, hothers rfl rfl⟩
  | checkpoint hidle =>
      refine ⟨hfile rfl, .of_eq rfl, forall_goOn ?_ fun other c _ => hothers rfl rfl other c⟩
      rintro _ ⟨⟩ pair ⟨⟩
  | lock hcall hfree =>
      refine ⟨hfile rfl, .of_eq rfl, forall_goOn ?_ fun other c _ => hothers rfl rfl other c⟩
      rintro _ ⟨⟩
      exact OwnBy.cons (h.calls _ _ hcall) le_rfl
  | getRoot hcall =>
      refine ⟨hfile rfl, .of_eq rfl, forall_goOn ?_ fun other c _ => hothers rfl rfl other c⟩
      rintro _ ⟨⟩
      exact ⟨OwnBy.cons (h.calls _ _ hcall) le_rfl, rfl⟩
  | getSerialNumber hcall =>
      refine ⟨hfile rfl, .of_eq rfl, forall_goOn ?_ fun other c _ => hothers rfl rfl other c⟩
      rintro _ ⟨⟩
      obtain ⟨hown, rfl⟩ := h.calls _ _ hcall
      refine ⟨had_now _ _, hown.cons le_rfl, fun before hbefore => ?_⟩
      exact h.upTo _ (h.file before hbefore)
  | writeFile hcall =>
      refine ⟨hfile rfl, .of_eq rfl, forall_goOn ?_ (hinside hcall trivial (.of_eq rfl))⟩
      rintro _ ⟨⟩
      exact ⟨Pending.cons (h.calls _ _ hcall) rfl, rfl⟩
  | writeFileFailed hcall =>
      refine ⟨hfile rfl, .of_eq rfl, forall_goOn ?_ (hinside hcall trivial (.of_eq rfl))⟩
      rintro _ ⟨⟩
  | rename hcall =>
      obtain ⟨hpending, htemp⟩ := h.calls _ _ hcall
      have hadvances : ∀ u : LocalVolume, u.file = v.tempFile → FileAdvances v u :=
        fun u hu before hbefore => ⟨_, hu.trans htemp, hpending.later before hbefore⟩
      refine ⟨?_, hadvances _ rfl, forall_goOn ?_ (hinside hcall trivial (hadvances _ rfl))⟩
      · intro state hstate
        cases htemp.symm.trans hstate
        exact hpending.had.cons
      · rintro _ ⟨⟩
        exact ⟨_, htemp, hpending.own.cons le_rfl⟩
  | renameFailed hcall =>
      refine ⟨hfile rfl, .of_eq rfl, forall_goOn ?_ (hinside hcall trivial (.of_eq rfl))⟩
      rintro _ ⟨⟩
  | returned hcall =>
      refine ⟨hfile rfl, .of_eq rfl, forall_goOn ?_ fun other c _ => hothers rfl rfl other c⟩
      rintro _ ⟨⟩

theorem opened_recorded (hdense : E.sparse = false) (h : Opened E v) : Recorded E [] v := by
  obtain ⟨blobs, hblobs, hrun⟩ := h.store
  obtain ⟨⟨extra, haccounts⟩, hfile⟩ := newLocalVolume_spec hdense hblobs hrun
  have hhad : ∀ pair, Had [] v pair → v.ns.pair = pair := by
    rintro pair ⟨u, hu, hpair⟩
    rw [List.mem_singleton.mp hu] at hpair
    exact hpair
  refine ⟨⟨extra, ?_⟩, ?_, ?_, ?_, ?_, ?_⟩
  · rw [h.holders]
    exact haccounts
  · intro id call hcall
    rw [h.calls] at hcall
    cases hcall
  · intro pair pair' hpair hpair' _
    rw [← hhad pair hpair, ← hhad pair' hpair']
  · intro pair hpair
    rw [← hhad pair hpair]
    exact le_rfl
  · intro state hstate
    obtain ⟨hroot, hserial⟩ := hfile state hstate
    refine ⟨v, List.mem_singleton_self v, ?_⟩
    rw [NameStore.pair, RootState.pair, hroot, hserial]
  · intro id call hcall
    rw [h.calls] at hcall
    cases hcall

theorem Recorded.step (hdense : E.sparse = false) (h : Recorded E past v)
    (hstep : VolumeStep E v w) (htogether : ReadsTogether v w) :
    Recorded E (v :: past) w ∧ FileAdvances v w := by
  obtain ⟨extra, haccounts⟩ := h.accounts
  obtain ⟨haccounts', hns⟩ := haccounts.volumeStep hdense hstep
  have hfacts := h.step_facts hns hstep htogether
  refine ⟨⟨⟨extra, haccounts'⟩, h.exclusive.volumeStep hstep, ?_, ?_, hfacts.file, hfacts.calls⟩,
    hfacts.advances⟩
  · -- a new serial number is above all that were there
    have hnew : ∀ pair, Had past v pair → w.ns.pair.2 = pair.2 → w.ns.pair = pair := by
      intro pair hpair heq
      rcases hns with hsame | hserial
      · rw [hsame] at heq ⊢
        exact h.unique _ _ (had_now past v) hpair heq
      · have hle := h.upTo pair hpair
        change w.ns.serialNumber = _ at heq
        omega
    intro pair pair' hpair hpair' heq
    rcases had_cons_iff.mp hpair with rfl | hpair
    · rcases had_cons_iff.mp hpair' with rfl | hpair'
      · rfl
      · exact hnew pair' hpair' heq
    · rcases had_cons_iff.mp hpair' with rfl | hpair'
      · exact (hnew pair hpair heq.symm).symm
      · exact h.unique pair pair' hpair hpair' heq
  · intro pair hpair
    rcases had_cons_iff.mp hpair with rfl | hpair
    · exact le_rfl
    · exact (h.upTo pair hpair).trans hns.le

theorem recorded_of_run (hdense : E.sparse = false) (h : Run (Opened E) (TogetherStep E) past v) :
    Recorded E past v := by
  induction h with
  | start h => exact opened_recorded hdense h
  | step _ hstep ih => exact (ih.step hdense hstep.1 hstep.2).1

/-- While both reads of every `save` see the same root, the file of a volume goes from
one state of the name store to a later one. -/
theorem checkpoint_atomic (hdense : E.sparse = false)
    (h : Run (Opened E) (TogetherStep E) past v) : Atomic E past v := by
  have hrecorded := recorded_of_run hdense h
  refine ⟨hrecorded.file, ?_, ?_, ?_⟩
  · clear hrecorded
    induction h with
    | start => exact fun u hu => absurd hu List.not_mem_nil
    | step h hstep ih =>
        have hadvances := ((recorded_of_run hdense h).step hdense hstep.1 hstep.2).2
        intro u hu before hbefore
        rcases List.mem_cons.mp hu with rfl | hu
        · exact hadvances before hbefore
        · obtain ⟨middle, hmiddle, hle⟩ := ih u hu before hbefore
          obtain ⟨state, hstate, hle'⟩ := hadvances middle hmiddle
          exact ⟨state, hstate, hle.trans hle'⟩
  · intro id own hcall
    obtain ⟨state, hstate, hown⟩ := hrecorded.calls id _ hcall
    obtain ⟨hhad, hle⟩ := hown own rfl
    refine ⟨state, hstate, ?_⟩
    rcases hle.lt_or_eq with hlt | heq
    · exact .inr hlt
    · exact .inl (hrecorded.unique _ _ (hrecorded.file state hstate) hhad heq.symm)
  · intro blobs t hblobs hrun state hstate
    obtain ⟨hroot, hserial⟩ := (newLocalVolume_spec hdense hblobs hrun).2 state hstate
    rw [NameStore.pair, RootState.pair, hroot, hserial]

/-! ### Two runs -/

theorem goOn_calls_ne {id : ℕ} {call : Option SaveCall} (h : v.calls id ≠ call) :
    (v.goOn id call).calls ≠ v.calls := by
  intro heq
  apply h
  rw [← heq, goOn_calls_self]

/-- A call of `save` that nobody disturbs writes the root of the name store. -/
theorem run_save {step : LocalVolume → LocalVolume → Prop} {id : ℕ}
    {own : Option (BlobAddr × ℤ)} (h : Run (Opened E) step past v)
    (hcall : v.calls id = some (.called own)) (hfree : v.persistMtx = none)
    (hstep : ∀ v w, VolumeStep E v w → w.ns = v.ns → w.calls ≠ v.calls → step v w) :
    ∃ past' w, Run (Opened E) step past' w ∧
      w.file = some ⟨v.ns.rootAddr, v.ns.serialNumber, []⟩ ∧
      w.calls id = some (.saved own) ∧ w.ns = v.ns ∧ w.persistMtx = none := by
  have hlocked := h.step (hstep _ _ (.lock hcall hfree) rfl
    (goOn_calls_ne (by simp [hcall])))
  have hroot := hlocked.step (hstep _ _ (.getRoot (goOn_calls_self _ id _)) rfl
    (goOn_calls_ne (by simp [goOn_calls_self])))
  have hserial := hroot.step (hstep _ _
    (@VolumeStep.getSerialNumber _ _ id own _ [] (goOn_calls_self _ id _)) rfl
    (goOn_calls_ne (by simp [goOn_calls_self])))
  have hwritten := hserial.step (hstep _ _ (.writeFile (goOn_calls_self _ id _)) rfl
    (goOn_calls_ne (by simp [goOn_calls_self])))
  have hsaved := hwritten.step (hstep _ _ (.rename (goOn_calls_self _ id _)) rfl
    (goOn_calls_ne (by simp [goOn_calls_self])))
  exact ⟨_, _, hsaved, rfl, goOn_calls_self _ id _, rfl, rfl⟩

namespace Table

/-- A volume over the blobs of a table that was never saved. -/
def openedVolume {table : List KnownBlob} (h : Proper table) : LocalVolume where
  ns := emptyVolume h
  holders := 0
  calls := fun _ => none
  persistMtx := none
  tempFile := none
  file := none

theorem opened_openedVolume {table : List KnownBlob} (h : Proper table)
    (hrun : (emptyNameStore (env table h) (blobStore table)).1 = .ok ()) :
    Opened (env table h) (openedVolume h) where
  store := by
    refine ⟨blobStore table, properBlobs h, ?_⟩
    have hempty : emptyNameStore (env table h) (blobStore table) = (.ok (), emptyVolume h) :=
      Prod.ext hrun rfl
    rw [newLocalVolume, hempty]
    rfl
  holders := rfl
  calls := fun _ => rfl
  persistMtx := rfl

/-- The small volume, once it is linked by the call `id`. -/
theorem link_smallVolume :
    multiLink smallEnv Hooks.none [⟨[], smallDirectory, [], 0⟩] false .backend
      (emptyVolume proper_smallTable) = (.ok none, smallVolume) := by
  have hresult : (link proper_smallTable [⟨[], smallDirectory, [], 0⟩]
      (emptyVolume proper_smallTable)).1 = .ok none := by decide +kernel
  exact run_eq hresult

end Table

/-- A link and its `save`, with nobody else around. -/
theorem save_of_link {step : LocalVolume → LocalVolume → Prop} {H : Hooks}
    {requests : List LinkRequest} {response : Option LookupResponse} {t : NameStore}
    (h : Run (Opened E) step past v) (hidle : v.calls 0 = none) (hfree : v.persistMtx = none)
    (hH : H.ReadOnly E.toEncoding)
    (hrun : multiLink E H requests false .backend v.ns = (.ok response, t))
    (hlink : ∀ w, VolumeStep E v w → w.ns = t → step v w)
    (hstep : ∀ v w, VolumeStep E v w → w.ns = v.ns → w.calls ≠ v.calls → step v w) :
    ∃ past' w, Run (Opened E) step past' w ∧ w.file = some ⟨t.rootAddr, t.serialNumber, []⟩ ∧
      w.calls 0 = some (.saved (some t.pair)) ∧ w.ns = t ∧ w.persistMtx = none := by
  have hlinked := h.step (hlink _ (@VolumeStep.link _ _ _ 0 _ _ _ _ _ hidle hH hrun) rfl)
  exact run_save hlinked (goOn_calls_self _ 0 _) hfree hstep

theorem checkpoint_atomic_saved :
    ∃ past v, Run (Opened Table.smallEnv) (TogetherStep Table.smallEnv) past v ∧
      v.file.map RootState.pair = some (Table.smallDirectory, 1) ∧
      Atomic Table.smallEnv past v := by
  have hopened := Table.opened_openedVolume Table.proper_smallTable (by decide +kernel)
  have hstart : Run (Opened Table.smallEnv) (TogetherStep Table.smallEnv) []
      (Table.openedVolume Table.proper_smallTable) := .start hopened
  have hpair : Table.smallVolume.pair = (Table.smallDirectory, 1) := by decide +kernel
  obtain ⟨past, v, hrun, hfile, -⟩ := save_of_link hstart (hopened.calls 0) hopened.persistMtx
    (Hooks.none_readOnly _) Table.link_smallVolume
    (fun w hstep _ => ⟨hstep, fun id own root hcall => absurd hcall (by simp [hopened.calls])⟩)
    (fun v w hstep hns _ => ⟨hstep, fun id own root _ => by rw [hns]⟩)
  refine ⟨past, v, hrun, ?_, checkpoint_atomic rfl hrun⟩
  have hmap : ∀ s : NameStore, Option.map RootState.pair
      (some ⟨s.rootAddr, s.serialNumber, []⟩) = some s.pair := fun _ => rfl
  rw [hfile, hmap, hpair]

/-- A `save` reads the root, a link commits, and the `save` reads the serial number: the
file then says what the name store never was. -/
theorem torn_of_link {H : Hooks} {requests : List LinkRequest} {response : Option LookupResponse}
    {t : NameStore} (hopened : Opened E v) (hH : H.ReadOnly E.toEncoding)
    (hrun : multiLink E H requests false .backend v.ns = (.ok response, t))
    (hroots : t.rootAddr ≠ v.ns.rootAddr) (hserials : t.serialNumber ≠ v.ns.serialNumber) :
    ∃ past w, Run (Opened E) (VolumeStep E) past w ∧ ¬ Atomic E past w := by
  have hstart : Run (Opened E) (VolumeStep E) [] v := .start hopened
  have hcalled := hstart.step (@VolumeStep.checkpoint _ _ 0 (hopened.calls 0))
  have hlocked := hcalled.step (.lock (goOn_calls_self _ 0 _) hopened.persistMtx)
  have hroot := hlocked.step (.getRoot (goOn_calls_self _ 0 _))
  have hidle : ((v.goOn 0 (some (.called none))).calls) 1 = none :=
    (goOn_calls_of_ne v (by decide) _).trans (hopened.calls 1)
  have hlink := hroot.step (@VolumeStep.link _ _ _ 1 _ _ _ _ _ hidle hH hrun)
  have hserial := hlink.step (@VolumeStep.getSerialNumber _ _ 0 none v.ns.rootAddr [] rfl)
  have hwritten := hserial.step (.writeFile (goOn_calls_self _ 0 _))
  have hsaved := hwritten.step (.rename (goOn_calls_self _ 0 _))
  refine ⟨_, _, hsaved, fun hatomic => ?_⟩
  obtain ⟨u, hu, hpair⟩ := hatomic.had _ rfl
  have hns : u.ns = t ∨ u.ns = v.ns := by
    simp only [List.mem_cons, List.not_mem_nil, or_false] at hu
    rcases hu with rfl | rfl | rfl | rfl | rfl | rfl | rfl | rfl
    · exact .inl rfl
    · exact .inl rfl
    · exact .inl rfl
    · exact .inl rfl
    · exact .inr rfl
    · exact .inr rfl
    · exact .inr rfl
    · exact .inr rfl
  rcases hns with hns | hns
  · rw [hns] at hpair
    exact hroots (congrArg Prod.fst hpair)
  · rw [hns] at hpair
    exact hserials (congrArg Prod.snd hpair).symm

theorem checkpoint_torn :
    ∃ E past v, E.sparse = false ∧ Run (Opened E) (VolumeStep E) past v ∧ ¬ Atomic E past v := by
  have hopened := Table.opened_openedVolume Table.proper_smallTable (by decide +kernel)
  have hroots : Table.smallVolume.rootAddr ≠
      (Table.emptyVolume Table.proper_smallTable).rootAddr := by decide +kernel
  have hserials : Table.smallVolume.serialNumber ≠
      (Table.emptyVolume Table.proper_smallTable).serialNumber := by decide +kernel
  obtain ⟨past, w, hrun, htorn⟩ := torn_of_link hopened (Hooks.none_readOnly _)
    Table.link_smallVolume hroots hserials
  exact ⟨Table.smallEnv, past, w, rfl, hrun, htorn⟩

end Grits

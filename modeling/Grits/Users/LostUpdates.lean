import Grits.Users.UsersFile

/-!
# Which accounts survive

`AddUser` and `createGuestUser` exclude each other by `createUserMutex`.  `deluser`
does not take it: while it is between its read and its write, what others write is
lost.
-/

namespace Grits

namespace Users

open Runs

variable {s t : Server} {past : List Server}

/-- The user was added, and not deleted afterwards. -/
def Lasting (log : List Event) (user : UserRecord) : Prop :=
  ∃ later earlier, log = later ++ .added user :: earlier ∧ .deleted user.username ∉ later

/-- The file has one record for each user that was added and not deleted afterwards, and
nothing else. -/
structure UpToDate (s : Server) : Prop where
  exact : ∀ line, line ∈ s.lines ↔ ∃ user, line = .record user ∧ Lasting s.log user
  once : (existing s.lines).Nodup

/-- No `deluser` is between its read and its write while another call is. -/
def DeluserApart (s : Server) : Prop :=
  ∀ id other username lines call, other ≠ id → s.calls id = some (.delRead username lines) →
    s.calls other = some call → ¬ call.Inside

/-- A step after which every `deluser` is still apart. -/
def ApartStep (s t : Server) : Prop := Step s t ∧ DeluserApart t

/-! ## The lines of the file -/

@[simp] theorem filterMap_record? (users : List UserRecord) :
    (users.map Line.record).filterMap Line.record? = users := by
  rw [List.filterMap_map]
  exact List.filterMap_some

theorem existing_map_record (users : List UserRecord) :
    existing (users.map .record) = users.map (·.username) := by
  rw [existing, filterMap_record?]

theorem mem_recorded_iff {log : List Event} {user : UserRecord} :
    user ∈ recorded log ↔ Lasting log user := by
  induction log with
  | nil =>
      refine ⟨fun h => absurd h List.not_mem_nil, ?_⟩
      rintro ⟨later, earlier, hlog, -⟩
      exact absurd hlog (by simp)
  | cons event log ih =>
      have hbefore : Lasting (event :: log) user ↔
          event = .added user ∨ (event ≠ .deleted user.username ∧ Lasting log user) := by
        constructor
        · rintro ⟨later, earlier, hlog, hnot⟩
          cases later with
          | nil =>
              rw [List.nil_append, List.cons.injEq] at hlog
              exact .inl hlog.1
          | cons first later =>
              rw [List.cons_append, List.cons.injEq] at hlog
              obtain ⟨rfl, rfl⟩ := hlog
              rw [List.mem_cons, not_or] at hnot
              exact .inr ⟨Ne.symm hnot.1, later, earlier, rfl, hnot.2⟩
        · rintro (rfl | ⟨hne, later, earlier, rfl, hnot⟩)
          · exact ⟨[], log, rfl, List.not_mem_nil⟩
          · exact ⟨event :: later, earlier, rfl, by simp [Ne.symm hne, hnot]⟩
      rw [hbefore]
      cases event with
      | added other => simp [recorded, ih, or_comm, eq_comm]
      | deleted username =>
          rw [recorded, List.mem_filter, ih, decide_eq_true_eq]
          constructor
          · rintro ⟨hlasting, hne⟩
            exact .inr ⟨fun heq => hne (Event.deleted.inj heq).symm, hlasting⟩
          · rintro (heq | ⟨hne, hlasting⟩)
            · cases heq
            · exact ⟨hlasting, fun heq => hne (congrArg Event.deleted heq.symm)⟩

/-! ## The invariant -/

/-- What a call has read is still what the file says. -/
def Call.Fresh (s : Server) : Call → Prop
  | .addRead user lines => lines = s.lines ∧ user.username ∉ existing s.lines
  | .addHome user lines => lines = s.lines ∧ user.username ∉ existing s.lines
  | .delRead _ lines => lines = s.lines
  | _ => True

/-- The invariant of a run. -/
structure Current (s : Server) : Prop where
  lines : s.lines = (recorded s.log).map .record
  nodup : ((recorded s.log).map (·.username)).Nodup
  mutex : ∀ id call, s.calls id = some call → call.Locked → s.createUserMutex = some id
  fresh : ∀ id call, s.calls id = some call → call.Fresh s
  apart : DeluserApart s

theorem Current.upToDate (h : Current s) : UpToDate s where
  exact := by
    intro line
    simp only [h.lines, List.mem_map, mem_recorded_iff]
    exact ⟨fun ⟨user, huser, heq⟩ => ⟨user, heq.symm, huser⟩,
      fun ⟨user, heq, huser⟩ => ⟨user, huser, heq.symm⟩⟩
  once := by
    rw [h.lines, existing_map_record]
    exact h.nodup

theorem goOn_calls_self (s : Server) (id : ℕ) (call : Option Call) :
    (s.goOn id call).calls id = call := Function.update_self ..

theorem goOn_calls_of_ne (s : Server) {id other : ℕ} (h : other ≠ id) (call : Option Call) :
    (s.goOn id call).calls other = s.calls other := Function.update_of_ne h ..

/-- The calls after one of them went on. -/
theorem forall_goOn {id : ℕ} {next : Option Call} {P : ℕ → Call → Prop}
    (hself : ∀ call, next = some call → P id call)
    (hothers : ∀ other call, other ≠ id → s.calls other = some call → P other call) :
    ∀ other call, (s.goOn id next).calls other = some call → P other call := by
  intro other call hcall
  by_cases h : other = id
  · subst h
    rw [goOn_calls_self] at hcall
    exact hself call hcall
  · rw [goOn_calls_of_ne s h] at hcall
    exact hothers other call h hcall

/-- A call that is not inside has nothing to be fresh. -/
theorem Call.fresh_of_not_inside {call : Call} (h : ¬ call.Inside) : call.Fresh s := by
  cases call with
  | addRead user lines => exact absurd trivial h
  | addHome user lines => exact absurd trivial h
  | delRead username lines => exact absurd trivial h
  | addCalled user => exact trivial
  | guestCalled => exact trivial
  | guestLocked => exact trivial
  | addLocked user => exact trivial
  | addWritten => exact trivial
  | delCalled username => exact trivial

theorem Call.Fresh.of_lines {call : Call} (h : call.Fresh s) (hlines : t.lines = s.lines) :
    call.Fresh t := by
  cases call with
  | addRead user lines => exact ⟨h.1.trans hlines.symm, hlines ▸ h.2⟩
  | addHome user lines => exact ⟨h.1.trans hlines.symm, hlines ▸ h.2⟩
  | delRead username lines => exact Eq.trans h hlines.symm
  | addCalled user => exact trivial
  | guestCalled => exact trivial
  | guestLocked => exact trivial
  | addLocked user => exact trivial
  | addWritten => exact trivial
  | delCalled username => exact trivial

/-- A step that leaves the file and the log alone. -/
theorem Current.keep (h : Current s) {id : ℕ} {next : Option Call} {mutex : Option ℕ}
    {homes : Finset GoString}
    (hmutex : ∀ call, next = some call → call.Locked → mutex = some id)
    (hfresh : ∀ call, next = some call → call.Fresh s)
    (hothers : ∀ other call, other ≠ id → s.calls other = some call → call.Locked →
      mutex = some other)
    (hapart : DeluserApart ({ s with createUserMutex := mutex, homes := homes }.goOn id next)) :
    Current ({ s with createUserMutex := mutex, homes := homes }.goOn id next) where
  lines := h.lines
  nodup := h.nodup
  mutex := forall_goOn hmutex hothers
  fresh := by
    refine forall_goOn (fun call hcall => ?_) (fun other call _ hcall => ?_)
    · exact (hfresh call hcall).of_lines rfl
    · exact (h.fresh other call hcall).of_lines rfl
  apart := hapart

/-- A step that writes the file, while nobody else is inside. -/
theorem Current.write (h : Current s) {id : ℕ} {next : Option Call} {lines : List Line}
    {event : Event} (hlines : lines = (recorded (event :: s.log)).map .record)
    (hnodup : ((recorded (event :: s.log)).map (·.username)).Nodup)
    (hmutex : ∀ call, next = some call → call.Locked → s.createUserMutex = some id)
    (hfresh : ∀ call, next = some call → ¬ call.Inside)
    (hothers : ∀ other call, other ≠ id → s.calls other = some call → ¬ call.Inside)
    (hapart : DeluserApart ({ s with file := some lines, log := event :: s.log }.goOn id next)) :
    Current ({ s with file := some lines, log := event :: s.log }.goOn id next) where
  lines := hlines
  nodup := hnodup
  mutex := forall_goOn hmutex fun other call _ hcall => h.mutex other call hcall
  fresh := by
    refine forall_goOn (fun call hcall => ?_) (fun other call hne hcall => ?_)
    · exact Call.fresh_of_not_inside (hfresh call hcall)
    · exact Call.fresh_of_not_inside (hothers other call hne hcall)
  apart := hapart

/-- Nobody else holds the mutex. -/
theorem Current.not_locked (h : Current s) {id other : ℕ} {call call' : Call}
    (hcall : s.calls id = some call) (hlocked : call.Locked) (hne : other ≠ id)
    (hother : s.calls other = some call') : ¬ call'.Locked := by
  intro hlocked'
  have hid := h.mutex id call hcall hlocked
  rw [h.mutex other call' hother hlocked'] at hid
  exact hne (Option.some.inj hid)

/-- A call that is inside is a `deluser` or has the mutex. -/
theorem Call.Inside.cases {call : Call} (h : call.Inside) :
    call.Locked ∨ ∃ username lines, call = .delRead username lines := by
  cases call with
  | addRead user lines => exact .inl trivial
  | addHome user lines => exact .inl trivial
  | delRead username lines => exact .inr ⟨username, lines, rfl⟩
  | addCalled user => exact h.elim
  | guestCalled => exact h.elim
  | guestLocked => exact h.elim
  | addLocked user => exact h.elim
  | addWritten => exact h.elim
  | delCalled username => exact h.elim

theorem Current.step (h : Current s) (hstep : ApartStep s t) : Current t := by
  obtain ⟨hstep, hapart⟩ := hstep
  -- the mutex as the other calls see it
  have hothers : ∀ {id : ℕ} other call, other ≠ id → s.calls other = some call → call.Locked →
      s.createUserMutex = some other := fun other call _ hcall => h.mutex other call hcall
  cases hstep with
  | @call id call hidle hstart =>
      refine h.keep ?_ ?_ hothers hapart
      · rintro _ ⟨⟩ hlocked
        rcases hstart with ⟨user, rfl⟩ | rfl | ⟨username, rfl⟩
        · exact hlocked.elim
        · exact hlocked.elim
        · exact hlocked.elim
      · rintro _ ⟨⟩
        rcases hstart with ⟨user, rfl⟩ | rfl | ⟨username, rfl⟩
        · exact trivial
        · exact trivial
        · exact trivial
  | lockAdd hcall hfree =>
      refine h.keep (fun _ _ _ => rfl) ?_ ?_ hapart
      · rintro _ ⟨⟩
        exact trivial
      · intro other call _ hother hlocked
        have hmutex := h.mutex other call hother hlocked
        rw [hfree] at hmutex
        cases hmutex
  | lockGuest hcall hfree =>
      refine h.keep (fun _ _ _ => rfl) ?_ ?_ hapart
      · rintro _ ⟨⟩
        exact trivial
      · intro other call _ hother hlocked
        have hmutex := h.mutex other call hother hlocked
        rw [hfree] at hmutex
        cases hmutex
  | nameGuest hcall hnew =>
      refine h.keep (fun _ _ _ => h.mutex _ _ hcall trivial) ?_ hothers hapart
      rintro _ ⟨⟩
      exact trivial
  | readAdd hcall hnew =>
      refine h.keep (fun _ _ _ => h.mutex _ _ hcall trivial) ?_ hothers hapart
      rintro _ ⟨⟩
      exact ⟨rfl, hnew⟩
  | alreadyExists hcall hold =>
      refine h.keep (fun _ hnone => by cases hnone) (fun _ hnone => by cases hnone) ?_ hapart
      exact fun other call hne hother hlocked =>
        absurd hlocked (h.not_locked hcall trivial hne hother)
  | @linkHome id user lines hcall hnew =>
      have hfresh : lines = s.lines ∧ user.username ∉ existing s.lines := h.fresh _ _ hcall
      refine h.keep (fun _ _ _ => h.mutex _ _ hcall trivial) ?_ hothers hapart
      rintro _ ⟨⟩
      exact hfresh
  | @writeAdd id user lines hcall =>
      obtain ⟨rfl, hnew⟩ := h.fresh _ _ hcall
      have hrecords := h.lines
      rw [hrecords, existing_map_record] at hnew
      refine h.write ?_ ?_ (fun _ _ _ => h.mutex _ _ hcall trivial) ?_ ?_ hapart
      · rw [recordsWith, hrecords, filterMap_record?]
        rfl
      · rw [recorded, List.map_append, List.nodup_append]
        refine ⟨h.nodup, by simp, ?_⟩
        rintro name hname _ hsingle rfl
        rw [List.map_singleton, List.mem_singleton] at hsingle
        exact hnew (hsingle ▸ hname)
      · rintro _ ⟨⟩ hinside
        exact hinside
      · intro other call hne hother hinside
        rcases hinside.cases with hlocked | ⟨username, lines, rfl⟩
        · exact h.not_locked hcall trivial hne hother hlocked
        · exact h.apart other id username lines _ hne.symm hother hcall trivial
  | unlock hcall hlocked =>
      refine h.keep (fun _ hnone => by cases hnone) (fun _ hnone => by cases hnone) ?_ hapart
      exact fun other call hne hother hlocked' =>
        absurd hlocked' (h.not_locked hcall hlocked hne hother)
  | readDel hcall hfile =>
      refine h.keep ?_ ?_ hothers hapart
      · rintro _ ⟨⟩ hlocked
        exact hlocked.elim
      · rintro _ ⟨⟩
        rw [Call.Fresh, Server.lines, hfile]
        rfl
  | @writeDel id username lines hcall =>
      have hlines : lines = s.lines := h.fresh _ _ hcall
      subst hlines
      refine h.write ?_ ?_ (fun _ hnone => by cases hnone) (fun _ hnone => by cases hnone) ?_ hapart
      · rw [recordsWithout, h.lines, filterMap_record?]
        rfl
      · exact h.nodup.sublist (List.filter_sublist.map _)
      · exact fun other call hne hother => h.apart id other username _ call hne hcall hother
  | failDel hcall hdel =>
      exact h.keep (fun _ hnone => by cases hnone) (fun _ hnone => by cases hnone) hothers hapart

theorem started_current (h : Started s) : Current s := by
  refine ⟨h.lines, h.nodup, ?_, ?_, ?_⟩
  · intro id call hcall
    rw [h.calls] at hcall
    cases hcall
  · intro id call hcall
    rw [h.calls] at hcall
    cases hcall
  · intro id other username lines call _ hcall
    rw [h.calls] at hcall
    cases hcall

/-- While every `deluser` is apart from the other calls, no update of the file is lost. -/
theorem users_upToDate (h : Run Started ApartStep past s) : UpToDate s :=
  (h.invariant (fun _ => started_current) (fun _ _ => Current.step)).upToDate

/-! ### Two runs -/

/-- A server with this user, in use by nobody. -/
def serverWith (user : UserRecord) : Server :=
  ⟨some [.record user], ∅, none, fun _ => none, [.added user]⟩

theorem started_serverWith (user : UserRecord) : Started (serverWith user) where
  lines := rfl
  nodup := List.nodup_singleton user.username
  calls := fun _ => rfl

/-- A single call is apart from all others. -/
theorem deluserApart_goOn {id : ℕ} (h : ∀ other, other ≠ id → s.calls other = none)
    (call : Option Call) : DeluserApart (s.goOn id call) := by
  intro first other username lines call' hne hfirst hother
  have hself : ∀ other call', (s.goOn id call).calls other = some call' → other = id := by
    refine forall_goOn (fun _ _ => rfl) fun other call' hne hcall => ?_
    rw [h other hne] at hcall
    cases hcall
  exact absurd ((hself other _ hother).trans (hself first _ hfirst).symm) hne

def alice : UserRecord := ⟨"alice".toList, "$argon2id$a".toList⟩

def carol : UserRecord := ⟨"carol".toList, "$argon2id$c".toList⟩

/-- `deluser` alone. -/
theorem users_upToDate_deleted :
    ∃ past s, Run Started ApartStep past s ∧ s.lines = [] ∧ UpToDate s := by
  have hstart : Run Started ApartStep [] (serverWith alice) := .start (started_serverWith alice)
  have hidle : ∀ other, other ≠ 0 → (serverWith alice).calls other = none := fun _ _ => rfl
  have hcalled := hstart.step
    ⟨@Step.call _ 0 (.delCalled alice.username) rfl (.inr (.inr ⟨_, rfl⟩)),
      deluserApart_goOn hidle _⟩
  have hidle' := fun other (hne : other ≠ 0) =>
    (goOn_calls_of_ne _ hne (some (.delCalled alice.username))).trans (hidle other hne)
  have hread := hcalled.step ⟨@Step.readDel _ 0 _ _ rfl rfl, deluserApart_goOn hidle' _⟩
  have hwritten := hread.step ⟨@Step.writeDel _ 0 _ _ rfl, deluserApart_goOn
    (fun other hne => (goOn_calls_of_ne _ hne _).trans (hidle' other hne)) _⟩
  exact ⟨_, _, hwritten, by decide +kernel, users_upToDate hwritten⟩

/-- `deluser` reads, an `AddUser` runs to its end, and `deluser` writes. -/
theorem users_lostUpdate :
    ∃ past s, Run Started Step past s ∧ (∀ id, s.calls id = none) ∧ ¬ UpToDate s := by
  have hstart : Run Started Step [] (serverWith alice) := .start (started_serverWith alice)
  have hdel := hstart.step
    (@Step.call _ 0 (.delCalled "bob".toList) rfl (.inr (.inr ⟨_, rfl⟩)))
  have hdelRead := hdel.step (@Step.readDel _ 0 _ _ rfl rfl)
  have hadd := hdelRead.step (@Step.call _ 1 (.addCalled carol) rfl (.inl ⟨_, rfl⟩))
  have hlocked := hadd.step (@Step.lockAdd _ 1 _ rfl rfl)
  have haddRead := hlocked.step (@Step.readAdd _ 1 _ rfl (by decide +kernel))
  have hhome := haddRead.step (@Step.linkHome _ 1 _ _ rfl (by decide +kernel))
  have hadded := hhome.step (@Step.writeAdd _ 1 _ _ rfl)
  have hreturned := hadded.step (@Step.unlock _ 1 _ rfl trivial)
  have hdeleted := hreturned.step (@Step.writeDel _ 0 _ _ rfl)
  refine ⟨_, _, hdeleted, fun id => ?_, fun hupToDate => ?_⟩
  · by_cases h0 : id = 0
    · subst h0
      rfl
    · by_cases h1 : id = 1
      · subst h1
        rfl
      · simp [Server.goOn, Function.update_of_ne, h0, h1, serverWith]
  · have hlasting : Lasting [.deleted "bob".toList, .added carol, .added alice] carol :=
      ⟨[.deleted "bob".toList], [.added alice], rfl, by decide +kernel⟩
    have hcarol := (hupToDate.exact (.record carol)).mpr ⟨carol, rfl, hlasting⟩
    have hlines : Line.record carol ∉ recordsWithout [.record alice] "bob".toList := by
      decide +kernel
    exact hlines hcarol

end Users

end Grits

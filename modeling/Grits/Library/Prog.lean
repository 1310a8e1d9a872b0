import Mathlib.Tactic

/-!
# Programs with a state that survives a stop

A `Prog σ ε α` runs on a state `σ` and either returns an `α` or stops with an
`ε`.  The state it leaves behind is kept in both cases, as in an imperative
language where an error return does not undo the writes made before it.

`Prog.wp m Q s` says that the run of `m` from `s` ends in `Q`, whichever way it
ends.  The rules below compute `wp` through every constructor, so that the
specification of a program is proved by rewriting with them and by citing the
specifications of the programs it calls (`Prog.wp_mono`).
-/

namespace Grits

/-- A program over the state `σ` that returns an `α` or stops with an `ε`. -/
def Prog (σ ε α : Type) := σ → Except ε α × σ

namespace Prog

variable {σ τ ε α β : Type}

/-- Return a value. -/
protected def pure (a : α) : Prog σ ε α := fun s => (.ok a, s)

/-- Run one program and, unless it stops, the next. -/
protected def bind (m : Prog σ ε α) (f : α → Prog σ ε β) : Prog σ ε β := fun s =>
  match m s with
  | (.ok a, t) => f a t
  | (.error e, t) => (.error e, t)

instance : Monad (Prog σ ε) where
  pure := Prog.pure
  bind := Prog.bind

/-- Stop; the state stays as it is. -/
def stop (e : ε) : Prog σ ε α := fun s => (.error e, s)

/-- Read the state. -/
def get : Prog σ ε σ := fun s => (.ok s, s)

/-- Change the state. -/
def modify (f : σ → σ) : Prog σ ε Unit := fun s => (.ok (), f s)

/-- Run `m`; where it stops, let `handler` decide how to go on. -/
def catching (m : Prog σ ε α) (handler : ε → Prog σ ε α) : Prog σ ε α := fun s =>
  match m s with
  | (.ok a, t) => (.ok a, t)
  | (.error e, t) => handler e t

/-- Run a program and return how it ended instead of stopping. -/
def attempt (m : Prog σ ε α) : Prog σ ε (Except ε α) := fun s => (.ok (m s).1, (m s).2)

/-- Run a program of a smaller state inside a larger one. -/
def zoom (read : τ → σ) (write : σ → τ → τ) (m : Prog σ ε α) : Prog τ ε α := fun t =>
  ((m (read t)).1, write (m (read t)).2 t)

/-- The run of `m` from `s` ends in `Q`. -/
def wp (m : Prog σ ε α) (Q : Except ε α → σ → Prop) (s : σ) : Prop :=
  Q (m s).1 (m s).2

theorem wp_of_run {m : Prog σ ε α} {Q : Except ε α → σ → Prop} {s t : σ}
    {r : Except ε α} (h : wp m Q s) (hrun : m s = (r, t)) : Q r t := by
  simpa only [wp, hrun] using h

theorem wp_mono {m : Prog σ ε α} {P Q : Except ε α → σ → Prop} {s : σ}
    (h : wp m P s) (himp : ∀ r t, P r t → Q r t) : wp m Q s :=
  himp _ _ h

theorem wp_and {m : Prog σ ε α} {P Q : Except ε α → σ → Prop} {s : σ}
    (hP : wp m P s) (hQ : wp m Q s) : wp m (fun r t => P r t ∧ Q r t) s :=
  ⟨hP, hQ⟩

@[simp] theorem wp_pure (a : α) (Q : Except ε α → σ → Prop) (s : σ) :
    wp (pure a : Prog σ ε α) Q s ↔ Q (.ok a) s := Iff.rfl

/-- What a postcondition asks of the first half of a sequence. -/
def andThen (f : α → Prog σ ε β) (Q : Except ε β → σ → Prop) : Except ε α → σ → Prop
  | .ok a, t => wp (f a) Q t
  | .error e, t => Q (.error e) t

@[simp] theorem andThen_ok (f : α → Prog σ ε β) (Q : Except ε β → σ → Prop)
    (a : α) (t : σ) : andThen f Q (.ok a) t ↔ wp (f a) Q t := Iff.rfl

@[simp] theorem andThen_error (f : α → Prog σ ε β) (Q : Except ε β → σ → Prop)
    (e : ε) (t : σ) : andThen f Q (.error e) t ↔ Q (.error e) t := Iff.rfl

theorem wp_bind_iff (m : Prog σ ε α) (f : α → Prog σ ε β)
    (Q : Except ε β → σ → Prop) (s : σ) :
    wp (m >>= f) Q s ↔ wp m (andThen f Q) s := by
  change Q (Prog.bind m f s).1 (Prog.bind m f s).2 ↔ andThen f Q (m s).1 (m s).2
  unfold Prog.bind
  rcases m s with ⟨r, t⟩
  cases r <;> rfl

/-- The sequence rule: cite what `m` guarantees, then go on from there. -/
theorem wp_bind {m : Prog σ ε α} {f : α → Prog σ ε β} {P : Except ε α → σ → Prop}
    {Q : Except ε β → σ → Prop} {s : σ} (h : wp m P s)
    (hok : ∀ a t, P (.ok a) t → wp (f a) Q t)
    (herr : ∀ e t, P (.error e) t → Q (.error e) t) : wp (m >>= f) Q s := by
  rw [wp_bind_iff]
  refine wp_mono h ?_
  rintro (e | a) t hP
  · exact herr e t hP
  · exact hok a t hP

@[simp] theorem wp_stop (e : ε) (Q : Except ε α → σ → Prop) (s : σ) :
    wp (stop e : Prog σ ε α) Q s ↔ Q (.error e) s := Iff.rfl

@[simp] theorem wp_get (Q : Except ε σ → σ → Prop) (s : σ) :
    wp (get : Prog σ ε σ) Q s ↔ Q (.ok s) s := Iff.rfl

@[simp] theorem wp_modify (f : σ → σ) (Q : Except ε Unit → σ → Prop) (s : σ) :
    wp (modify f : Prog σ ε Unit) Q s ↔ Q (.ok ()) (f s) := Iff.rfl

@[simp] theorem wp_get_bind (f : σ → Prog σ ε β) (Q : Except ε β → σ → Prop) (s : σ) :
    wp (get >>= f) Q s ↔ wp (f s) Q s := Iff.rfl

@[simp] theorem wp_modify_bind (g : σ → σ) (f : Unit → Prog σ ε β)
    (Q : Except ε β → σ → Prop) (s : σ) :
    wp (modify g >>= f) Q s ↔ wp (f ()) Q (g s) := Iff.rfl

@[simp] theorem wp_stop_bind (e : ε) (f : α → Prog σ ε β)
    (Q : Except ε β → σ → Prop) (s : σ) :
    wp ((stop e : Prog σ ε α) >>= f) Q s ↔ Q (.error e) s := Iff.rfl

theorem wp_catching {m : Prog σ ε α} {handler : ε → Prog σ ε α}
    {P Q : Except ε α → σ → Prop} {s : σ} (h : wp m P s)
    (hok : ∀ a t, P (.ok a) t → Q (.ok a) t)
    (herr : ∀ e t, P (.error e) t → wp (handler e) Q t) :
    wp (catching m handler) Q s := by
  unfold wp at h
  unfold wp catching
  rcases hrun : m s with ⟨r, t⟩
  rw [hrun] at h
  cases r with
  | ok a => exact hok a t h
  | error e => exact herr e t h

theorem wp_attempt {m : Prog σ ε α} {P : Except ε α → σ → Prop}
    {Q : Except ε (Except ε α) → σ → Prop} {s : σ} (h : wp m P s)
    (himp : ∀ r t, P r t → Q (.ok r) t) : wp (attempt m) Q s :=
  himp _ _ h

theorem wp_zoom {read : τ → σ} {write : σ → τ → τ} {m : Prog σ ε α}
    {P : Except ε α → σ → Prop} {Q : Except ε α → τ → Prop} {t : τ}
    (h : wp m P (read t)) (himp : ∀ r s, P r s → Q r (write s t)) :
    wp (zoom read write m) Q t :=
  himp _ _ h

/-! ## Runs -/

/-- A run is known once its result is. -/
theorem run_eq {m : Prog σ ε α} {s : σ} {r : Except ε α} (h : (m s).1 = r) :
    m s = (r, (m s).2) := Prod.ext h rfl

theorem bind_run {m : Prog σ ε α} {f : α → Prog σ ε β} {s t : σ} {a : α}
    (h : m s = (.ok a, t)) : (m >>= f) s = f a t := by
  change Prog.bind m f s = f a t
  rw [Prog.bind, h]

theorem bind_run_error {m : Prog σ ε α} {f : α → Prog σ ε β} {s t : σ} {e : ε}
    (h : m s = (.error e, t)) : (m >>= f) s = (.error e, t) := by
  change Prog.bind m f s = _
  rw [Prog.bind, h]

/-- Go on from the end of a known run. -/
theorem wp_bind_run {m : Prog σ ε α} {f : α → Prog σ ε β} {Q : Except ε β → σ → Prop}
    {s t : σ} {a : α} (h : m s = (.ok a, t)) : wp (m >>= f) Q s ↔ wp (f a) Q t := by
  rw [wp, bind_run h, wp]

theorem catching_run {m : Prog σ ε α} {handler : ε → Prog σ ε α} {s t : σ} {a : α}
    (h : m s = (.ok a, t)) : catching m handler s = (.ok a, t) := by
  rw [catching, h]

theorem catching_run_error {m : Prog σ ε α} {handler : ε → Prog σ ε α} {s t : σ} {e : ε}
    (h : m s = (.error e, t)) : catching m handler s = handler e t := by
  rw [catching, h]

theorem bind_ok_iff {m : Prog σ ε α} {f : α → Prog σ ε β} {s u : σ} {b : β} :
    (m >>= f) s = (.ok b, u) ↔ ∃ a t, m s = (.ok a, t) ∧ f a t = (.ok b, u) := by
  change Prog.bind m f s = (.ok b, u) ↔ _
  unfold Prog.bind
  rcases m s with ⟨r, t⟩
  cases r with
  | ok a => simp
  | error e => simp

/-- A run of a sequence that stops, stopped in one half or the other. -/
theorem bind_error_iff {m : Prog σ ε α} {f : α → Prog σ ε β} {s u : σ} {e : ε} :
    (m >>= f) s = (.error e, u) ↔
      m s = (.error e, u) ∨ ∃ a t, m s = (.ok a, t) ∧ f a t = (.error e, u) := by
  change Prog.bind m f s = (.error e, u) ↔ _
  unfold Prog.bind
  rcases m s with ⟨r, t⟩
  cases r with
  | ok a => simp
  | error e' => simp

@[simp] theorem pure_run (a : α) (s : σ) : (pure a : Prog σ ε α) s = (.ok a, s) := rfl

@[simp] theorem stop_run (e : ε) (s : σ) :
    (stop e : Prog σ ε α) s = (.error e, s) := rfl

@[simp] theorem get_run (s : σ) : (get : Prog σ ε σ) s = (.ok s, s) := rfl

@[simp] theorem modify_run (f : σ → σ) (s : σ) :
    (modify f : Prog σ ε Unit) s = (.ok (), f s) := rfl

/-! ## Loops over a list -/

/-- Run `body` over a list from left to right, threading an accumulator. -/
def loop (body : β → α → Prog σ ε β) : β → List α → Prog σ ε β
  | acc, [] => pure acc
  | acc, a :: rest => do
      let acc ← body acc a
      loop body acc rest

@[simp] theorem loop_nil (body : β → α → Prog σ ε β) (acc : β) :
    loop body acc [] = (pure acc : Prog σ ε β) := rfl

theorem loop_cons (body : β → α → Prog σ ε β) (acc : β) (a : α) (rest : List α) :
    loop body acc (a :: rest) = (body acc a >>= fun acc => loop body acc rest) := rfl

/-- A loop whose rounds leave the state alone computes a fold. -/
theorem loop_eq_foldl {body : β → α → Prog σ ε β} {f : β → α → β} {I : β → Prop} {s : σ}
    (hbody : ∀ acc a, I acc → body acc a s = (.ok (f acc a), s))
    (hinv : ∀ acc a, I acc → I (f acc a)) {all : List α} {acc : β} (hacc : I acc) :
    loop body acc all s = (.ok (all.foldl f acc), s) := by
  induction all generalizing acc with
  | nil => rfl
  | cons a rest ih =>
      rw [loop_cons, bind_run (hbody acc a hacc)]
      exact ih (hinv acc a hacc)

private theorem wp_loop_from {body : β → α → Prog σ ε β} {I : List α → β → σ → Prop}
    {E : ε → σ → Prop} {all : List α}
    (hbody : ∀ done a todo acc s, done ++ a :: todo = all → I done acc s →
      wp (body acc a) (fun r t => match r with
        | .ok acc => I (done ++ [a]) acc t
        | .error e => E e t) s)
    (rest : List α) : ∀ (done : List α) (acc : β) (s : σ), done ++ rest = all →
      I done acc s →
      wp (loop body acc rest) (fun r t => match r with
        | .ok acc => I all acc t
        | .error e => E e t) s := by
  induction rest with
  | nil =>
      intro done acc s hall hI
      rw [List.append_nil] at hall
      subst hall
      simpa using hI
  | cons a rest ih =>
      intro done acc s hall hI
      rw [loop_cons]
      refine wp_bind (hbody done a rest acc s hall hI) ?_ ?_
      · intro acc' t hI'
        exact ih (done ++ [a]) acc' t (by simpa using hall) hI'
      · intro e t h
        exact h

/-- The loop rule.  `I done acc s` is the invariant after the elements `done`;
a stop of the body must satisfy `E` at once. -/
theorem wp_loop {body : β → α → Prog σ ε β} {I : List α → β → σ → Prop}
    {E : ε → σ → Prop} {all : List α} {acc : β} {s : σ} (hstart : I [] acc s)
    (hbody : ∀ done a todo acc s, done ++ a :: todo = all → I done acc s →
      wp (body acc a) (fun r t => match r with
        | .ok acc => I (done ++ [a]) acc t
        | .error e => E e t) s) :
    wp (loop body acc all) (fun r t => match r with
      | .ok acc => I all acc t
      | .error e => E e t) s :=
  wp_loop_from hbody all [] acc s rfl hstart

/-! ## What a program leaves alone -/

/-- Whichever way a run of `m` ends, this aspect of the state is as it was. -/
def Leaves {γ : Type} (aspect : σ → γ) (m : Prog σ ε α) : Prop := ∀ s, aspect (m s).2 = aspect s

section Leaves

variable {γ : Type} {aspect : σ → γ}

theorem Leaves.run {m : Prog σ ε α} (h : Leaves aspect m) {s t : σ} {r : Except ε α}
    (hrun : m s = (r, t)) : aspect t = aspect s := by
  have hs := h s
  rwa [hrun] at hs

theorem leaves_pure (a : α) : Leaves aspect (pure a : Prog σ ε α) := fun _ => rfl

theorem leaves_stop (e : ε) : Leaves aspect (stop e : Prog σ ε α) := fun _ => rfl

theorem leaves_get : Leaves aspect (get : Prog σ ε σ) := fun _ => rfl

theorem leaves_modify {f : σ → σ} (h : ∀ s, aspect (f s) = aspect s) :
    Leaves aspect (modify f : Prog σ ε Unit) := h

theorem Leaves.bind {m : Prog σ ε α} {f : α → Prog σ ε β} (h : Leaves aspect m)
    (hf : ∀ a, Leaves aspect (f a)) : Leaves aspect (m >>= f) := by
  intro s
  change aspect (Prog.bind m f s).2 = aspect s
  have hs := h s
  unfold Prog.bind
  rcases hrun : m s with ⟨r, t⟩
  rw [hrun] at hs
  cases r with
  | ok a => exact (hf a t).trans hs
  | error e => exact hs

theorem Leaves.catching {m : Prog σ ε α} {handler : ε → Prog σ ε α} (h : Leaves aspect m)
    (hhandler : ∀ e, Leaves aspect (handler e)) : Leaves aspect (catching m handler) := by
  intro s
  have hs := h s
  unfold Prog.catching
  rcases hrun : m s with ⟨r, t⟩
  rw [hrun] at hs
  cases r with
  | ok a => exact hs
  | error e => exact (hhandler e t).trans hs

/-- A program of a smaller state, in which the aspect is seen as `inner`. -/
theorem Leaves.zoom {read : τ → σ} {write : σ → τ → τ} {inner : σ → γ} {outer : τ → γ}
    {m : Prog σ ε α} (h : Leaves inner m) (hread : ∀ t, inner (read t) = outer t)
    (hwrite : ∀ s t, outer (write s t) = inner s) : Leaves outer (zoom read write m) := by
  intro t
  change outer (write (m (read t)).2 t) = outer t
  rw [hwrite, h, hread]

theorem Leaves.loop {body : β → α → Prog σ ε β} {all : List α}
    (h : ∀ acc, ∀ a ∈ all, Leaves aspect (body acc a)) (acc : β) :
    Leaves aspect (loop body acc all) := by
  induction all generalizing acc with
  | nil => exact leaves_pure acc
  | cons a rest ih =>
      rw [loop_cons]
      refine (h acc a List.mem_cons_self).bind fun acc => ?_
      exact ih (fun acc b hb => h acc b (List.mem_cons_of_mem _ hb)) acc

end Leaves

end Prog

end Grits

import Mathlib
import Grits.Library.Simulation
import Grits.NameStore.Composition
import Grits.NameStore.Mute

/-!
# What the watchers are told

`notifyWatchers` of `internal/grits/namestore.go` over whole runs of a name store.
`recursiveLink` tells of a change while the new tree is still being built, so a link that fails
afterwards has told of changes that never came about.  A link that goes through has told of all
of its changes, in order.  Nothing else tells the watchers anything.
-/

namespace Grits

open Prog SlashPath Simulation

variable {E : Env} {H : Hooks} {held holders : Multiset BlobAddr} {s t u : NameStore}

/-! ## The path that is told -/

/-- What is told of a request that meets the tree `old`: its path, the node there, and the node
it puts there.  At the root, which is the empty path, the node told to be there is the child of
the empty name. -/
noncomputable def noticeOf (E : Encoding) (request : LinkRequest) (old : Option BlobAddr) :
    Notification :=
  ⟨linkName request.path, E.walk old (split (linkName request.path)), request.value⟩

/-- A call that goes through has told of this change, one that fails may have. -/
def Tells {α : Type} (s : NameStore) (note : Notification) : Except Halt α → NameStore → Prop
  | .ok _, t => t.notifications = s.notifications ++ [note]
  | .error _, t => t.notifications = s.notifications ∨ t.notifications = s.notifications ++ [note]

/-- After the change is told, nothing is. -/
theorem Mute.told {α : Type} {m : Op α} (hm : Mute m) {note : Notification}
    (h : t.notifications = s.notifications ++ [note]) : wp m (Tells s note) t := by
  have hmute : wp m (fun _ u => u.notifications = t.notifications) t := hm t
  refine wp_mono hmute ?_
  rintro (e | a) u hu
  · exact .inr (hu.trans h)
  · exact hu.trans h

/-- Once the change is told, what follows tells nothing. -/
theorem Tells.bind {α β : Type} {m : Op α} {f : α → Op β} {note : Notification}
    (h : wp m (Tells s note) s) (hf : ∀ a, Mute (f a)) : wp (m >>= f) (Tells s note) s :=
  wp_bind h (fun a _ ht => (hf a).told ht) (fun _ _ ht => ht)

/-- The requests take the tree `old` to the tree `new`, and this is told of them. -/
inductive Notices (E : Encoding) :
    List LinkRequest → Option BlobAddr → Option BlobAddr → List Notification → Prop
  | nil (root : Option BlobAddr) : Notices E [] root root []
  | cons {request : LinkRequest} {requests : List LinkRequest} {old middle new : Option BlobAddr}
      {notes : List Notification} (hfirst : Linked E request old middle)
      (hrest : Notices E requests middle new notes) :
      Notices E (request :: requests) old new (noticeOf E request old :: notes)

/-- This is told of requests that a link which fails has got to. -/
inductive Interrupted (E : Encoding) :
    List LinkRequest → Option BlobAddr → List Notification → Prop
  | before (requests : List LinkRequest) (root : Option BlobAddr) : Interrupted E requests root []
  | within (request : LinkRequest) (requests : List LinkRequest) (root : Option BlobAddr) :
      Interrupted E (request :: requests) root [noticeOf E request root]
  | after {request : LinkRequest} {requests : List LinkRequest} {old middle : Option BlobAddr}
      {notes : List Notification} (hfirst : Linked E request old middle)
      (hrest : Interrupted E requests middle notes) :
      Interrupted E (request :: requests) old (noticeOf E request old :: notes)

/-- Linking a well-formed tree keeps the tree well-formed. -/
theorem Linked.wellFormedTree {E : Encoding} {request : LinkRequest} {old new : Option BlobAddr}
    (h : Linked E request old new) (hold : E.WellFormedTree old)
    (hvalue : E.WellFormedTree request.value) : E.WellFormedTree new :=
  h.updated.whole Encoding.reads_unique hold hvalue

/-- What has been told when the requests have been applied, or have failed. -/
def Announced (E : Encoding) (requests : List LinkRequest) (old : Option BlobAddr) (s : NameStore) :
    Except Halt (Option BlobAddr) → NameStore → Prop
  | .ok new, t => ∃ notes, Notices E requests old new notes ∧
      t.notifications = s.notifications ++ notes
  | .error _, t => ∃ notes, Interrupted E requests old notes ∧
      t.notifications = s.notifications ++ notes

/-- Hooks whose callbacks only read, and tell the watchers nothing themselves. -/
structure Hooks.Discreet (E : Encoding) (H : Hooks) : Prop extends H.ReadOnly E where
  muteLink : ∀ callback ∈ H.linkCallbacks, ∀ oldRoot newRoot requests principal,
    Mute (callback oldRoot newRoot requests principal)
  muteLookup : ∀ callback ∈ H.lookupCallbacks, ∀ response request root,
    Mute (callback response request root)

/-- The names on the way to the node that is told of. -/
def Notification.names (note : Notification) : List GoString :=
  if note.path = [] then [] else split note.path

/-- The update that the notification describes. -/
def Notification.update (note : Notification) : List GoString × Option BlobAddr :=
  (note.names, note.newValue)

theorem update_noticeOf (E : Encoding) (request : LinkRequest) (old : Option BlobAddr) :
    (noticeOf E request old).update = (request.segments, request.value) := rfl

/-- The changes told of are those that were made. -/
theorem Notices.updatedAll {E : Encoding} {requests : List LinkRequest} {old new : Option BlobAddr}
    {notes : List Notification} (h : Notices E requests old new notes) :
    PathTree.UpdatedAll E.entries E.Reads (notes.map (·.update)) old new := by
  induction h with
  | nil root => rfl
  | cons hfirst _ ih => exact ⟨_, hfirst.updated, ih⟩

theorem Notices.value_mem {E : Encoding} {requests : List LinkRequest} {old new : Option BlobAddr}
    {notes : List Notification} (h : Notices E requests old new notes) :
    ∀ note ∈ notes, ∃ request ∈ requests, note.newValue = request.value := by
  induction h with
  | nil root => intro note hnote; cases hnote
  | @cons request requests old middle new notes hfirst hrest ih =>
      intro note hnote
      rcases List.mem_cons.mp hnote with rfl | hnote
      · exact ⟨request, List.mem_cons_self, rfl⟩
      · obtain ⟨other, hother, hvalue⟩ := ih note hnote
        exact ⟨other, List.mem_cons_of_mem _ hother, hvalue⟩

/-! ## The bulletin -/

/-- The tree of a store, and what the watchers have been told. -/
structure Bulletin (E : Encoding) where
  root : BlobAddr
  told : List Notification
  whole : E.WellFormedTree (some root)

/-- A call of `MultiLink`, and whether it goes through. -/
structure AttemptedLink where
  requests : List LinkRequest
  goesThrough : Bool

/-- A step of the store, as the watchers see it. -/
inductive Bulletin.Step (E : Encoding) : Bulletin E → Option AttemptedLink → Bulletin E → Prop
  | linked {b b' : Bulletin E} {requests : List LinkRequest} {notes : List Notification}
      (hnotes : Notices E requests (some b.root) (some b'.root) notes)
      (hvalues : ∀ note ∈ notes, E.WellFormedTree note.newValue)
      (htold : b'.told = b.told ++ notes) : Step E b (some ⟨requests, true⟩) b'
  | failed {b b' : Bulletin E} {requests : List LinkRequest} {notes : List Notification}
      (hnotes : Interrupted E requests (some b.root) notes) (hroot : b'.root = b.root)
      (htold : b'.told = b.told ++ notes) : Step E b (some ⟨requests, false⟩) b'
  | other (b : Bulletin E) : Step E b none b

/-- Between two states of the tree, `notes` are enough to keep up with it: a node none of them is
about is where it was, and if all of them came about, they make up the difference. -/
structure KeepsUp (E : Encoding) (events : List (Option AttemptedLink)) (old new : BlobAddr)
    (notes : List Notification) : Prop where
  rest : ∀ path, (∀ note ∈ notes, PathTree.Unrelated note.names path) →
    E.walk (some new) path = E.walk (some old) path
  replay : (∀ event, some event ∈ events → event.goesThrough = true) →
    E.PutAll (notes.map (·.update)) (some old) (some new)

theorem KeepsUp.refl {E : Encoding} (events : List (Option AttemptedLink)) (root : BlobAddr) :
    KeepsUp E events root root [] := ⟨fun _ _ => rfl, fun _ => rfl⟩

theorem KeepsUp.trans {E : Encoding} {event : Option AttemptedLink}
    {events : List (Option AttemptedLink)} {old middle new : BlobAddr}
    {notes notes' : List Notification}
    (h : KeepsUp E [event] old middle notes) (h' : KeepsUp E events middle new notes') :
    KeepsUp E (event :: events) old new (notes ++ notes') := by
  constructor
  · intro path hpath
    rw [h'.rest path fun note hnote => hpath note (List.mem_append_right _ hnote),
      h.rest path fun note hnote => hpath note (List.mem_append_left _ hnote)]
  · intro hall
    rw [List.map_append]
    refine (h.replay ?_).append (h'.replay ?_)
    · intro other hother
      rw [List.mem_singleton] at hother
      exact hall other (hother ▸ List.mem_cons_self)
    · exact fun other hother => hall other (List.mem_cons_of_mem _ hother)

/-- What the store does next, with the references to nodes that are held. -/
inductive StoreStep (E : Env) :
    Multiset BlobAddr × NameStore → Option AttemptedLink → Multiset BlobAddr × NameStore → Prop
  | link {holders : Multiset BlobAddr} {s t : NameStore} {H : Hooks} {requests : List LinkRequest}
      {returnResults : Bool} {principal : PrincipalRef} {r : Except Halt (Option LookupResponse)}
      (hH : H.Discreet E.toEncoding)
      (hvalues : ∀ request ∈ requests, E.WellFormedTree request.value)
      (hrun : multiLink E H requests returnResults principal s = (r, t)) (hr : Returned r) :
      StoreStep E (holders, s) (some ⟨requests, r.isOk⟩) (holders, t)
  | lookup {holders : Multiset BlobAddr} {s t : NameStore} {callbacks : List LookupCallback}
      {paths : List GoString} {startAddr : BlobAddr} {principal : PrincipalRef}
      {r : Except Halt LookupResponse}
      (hcallbacks : ∀ callback ∈ callbacks, callback.ReadOnly E.toEncoding)
      (hmute : ∀ callback ∈ callbacks, ∀ response request root,
        Mute (callback response request root))
      (hrun : Grits.lookup E callbacks paths startAddr principal s = (r, t)) :
      StoreStep E (holders, s) none (holders, t)
  | take {holders : Multiset BlobAddr} {s t : NameStore} {addr : BlobAddr}
      (hrun : getFileNode E addr s = (.ok (), t)) :
      StoreStep E (holders, s) none (addr ::ₘ holders, t)
  | takeFailed {holders : Multiset BlobAddr} {s t : NameStore} {addr : BlobAddr} {halt : Halt}
      (hrun : getFileNode E addr s = (.error halt, t)) :
      StoreStep E (holders, s) none (holders, t)
  | release {holders : Multiset BlobAddr} {s t : NameStore} {addr : BlobAddr}
      {r : Except Halt Unit} (hrun : releaseNode E addr s = (r, t)) :
      StoreStep E (addr ::ₘ holders, s) none (holders, t)
  | cleanup {holders : Multiset BlobAddr} {s t : NameStore} {r : Except Halt Unit}
      (hrun : Grits.cleanup E s = (r, t)) : StoreStep E (holders, s) none (holders, t)
  | blobs {holders : Multiset BlobAddr} {s : NameStore}
      {blobs : Finmap fun _ : BlobAddr => LocalCachedFile} (hserves : Serves E.toEncoding blobs s) :
      StoreStep E (holders, s) none (holders, { s with blobStore := blobs })

/-- However the call has ended, this holds. -/
theorem of_post {α : Type} {P : NameStore → Prop} {r : Except Halt α}
    (h : post (fun _ t => P t) P r t) : P t := by
  rcases r with (_ | _ | _ | _) | _
  · exact h
  · exact h.elim
  · exact h.elim
  · exact h.elim
  · exact h

/-- Only a link changes the tree or tells the watchers anything. -/
theorem StoreStep.other (hdense : E.sparse = false) {holders' : Multiset BlobAddr}
    (h : StoreStep E (holders, s) none (holders', t)) (hs : Reachable E holders s) :
    t.rootAddr = s.rootAddr ∧ t.notifications = s.notifications := by
  have hinv := hs.inv hdense
  have haccounts := inv_iff_accounts.mp hinv
  cases h with
  | lookup hcallbacks hmute hrun =>
      refine ⟨?_, (mute_lookup hmute _ _ _).run hrun⟩
      have hspec := wp_of_run
        (lookup_spec hinv.sound hdense hinv.root_ready.cached hcallbacks _ _ _) hrun
      exact (of_post hspec).quiet.rootAddr
  | take hrun =>
      refine ⟨?_, (mute_getFileNode _).run hrun⟩
      have hspec := wp_of_run (haccounts.getFileNode_spec hdense _) hrun
      exact hspec.2.rootAddr
  | @takeFailed _ _ _ addr halt hrun =>
      refine ⟨?_, (mute_getFileNode _).run hrun⟩
      have hspec : wp (getFileNode E addr) (post (fun _ t => t.rootAddr = s.rootAddr)
          (fun t => t.rootAddr = s.rootAddr)) s :=
        wp_post_mono (haccounts.getFileNode_spec hdense addr) (fun _ _ h => h.2.rootAddr)
          (fun _ h => h.quiet.rootAddr)
      exact of_post (wp_of_run hspec hrun)
  | @release _ _ _ addr r hrun =>
      refine ⟨?_, (mute_releaseNode _).run hrun⟩
      have hspec : wp (releaseNode E addr) (post (fun _ t => t.rootAddr = s.rootAddr)
          (fun t => t.rootAddr = s.rootAddr)) s :=
        wp_post_mono (haccounts.releaseNode_spec hdense) (fun _ _ h => h.2.rootAddr)
          (fun _ h => h.elim)
      exact of_post (wp_of_run hspec hrun)
  | cleanup hrun =>
      refine ⟨?_, mute_cleanup.run hrun⟩
      have hspec : wp (Grits.cleanup E) (post (fun _ t => t.rootAddr = s.rootAddr)
          (fun t => t.rootAddr = s.rootAddr)) s :=
        wp_post_mono haccounts.cleanup_spec (fun _ _ h => h.rootAddr) (fun _ h => h.elim)
      exact of_post (wp_of_run hspec hrun)
  | blobs hserves => exact ⟨rfl, rfl⟩

theorem Notices.values {E : Encoding} {requests : List LinkRequest} {old new : Option BlobAddr}
    {notes : List Notification} (h : Notices E requests old new notes)
    (hvalues : ∀ request ∈ requests, E.WellFormedTree request.value) :
    ∀ note ∈ notes, E.WellFormedTree note.newValue := by
  intro note hnote
  obtain ⟨request, hrequest, hvalue⟩ := h.value_mem note hnote
  rw [hvalue]
  exact hvalues request hrequest

end Grits

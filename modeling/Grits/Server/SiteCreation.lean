import Grits.Client.LinkAttempt
import Grits.RateLimit.Windows

/-!
# The limit on new sites

`handleLink` of `internal/gritsd/module_http.go` looks at the paths of a batch for a name
under `sites/`, and charges the address of the client once if it finds one.  What a batch
puts there is decided by `MultiLink`: each of its requests may add a site, and one that
links a tree at `sites` or at the root may add many.  As long as no call can add more
than one new name, and no name without being charged, the rate limiter's bound is a bound
on the new names.

The calls of one address are those with one value of `clientIP`; other clients, and
whatever else the server does, may change the volumes at any time.
-/

namespace Grits

open Prog

variable {E : Env} {H : Hooks} {holders : Multiset BlobAddr} {s t : NameStore}

/-! ## The paths of sites -/

def sites : GoString := "sites".toList

/-- `isSiteCreationRequest`. -/
def isSiteCreationRequest (path : GoString) : Bool :=
  match SlashPath.splitN 3 (SlashPath.trimRight path) with
  | first :: second :: _ => first == sites && second != []
  | _ => false

/-- The names under `sites/`. -/
noncomputable def siteNames (E : Encoding) (root : BlobAddr) : Finset GoString :=
  match E.walk (some root) [sites] with
  | none => ∅
  | some addr => ((E.childrenAt addr).getD ∅).keys

theorem mem_siteNames {E : Encoding} {root : BlobAddr} {name : GoString} :
    name ∈ siteNames E root ↔ E.walk (some root) [sites, name] ≠ none := by
  have hwalk : E.walk (some root) [sites, name] =
      PathTree.child E.entries (E.walk (some root) [sites]) name := rfl
  rw [hwalk, siteNames]
  cases E.walk (some root) [sites] with
  | none => simp
  | some addr =>
      simp only [PathTree.child, Option.bind_some, Encoding.entries]
      cases E.childrenAt addr with
      | none => simp [Finmap.keys_empty]
      | some children =>
          simp [Finmap.mem_keys, Finmap.mem_iff, Option.ne_none_iff_exists']

/-- The paths that count as new sites are those of a name under `sites/`, and of what is
below it. -/
theorem isSiteCreationRequest_iff (path : GoString) :
    isSiteCreationRequest path = true ↔
      ∃ name rest, SlashPath.split (SlashPath.trimRight path) = sites :: name :: rest ∧ name ≠ [] := by
  rw [isSiteCreationRequest, SlashPath.splitN, SlashPath.split_splitN2]
  generalize SlashPath.trimRight path = trimmed
  rcases SlashPath.splitN2 trimmed with ⟨first, _ | rest⟩
  · simp
  · simp only
    rw [SlashPath.splitN, SlashPath.split_splitN2 rest]
    rcases SlashPath.splitN2 rest with ⟨second, _ | rest⟩
    · simp
    · simp

/-- A request that writes a name under `sites/` has such a path. -/
theorem isSiteCreationRequest_of_segments {request : LinkRequest} {name : GoString}
    (h : request.segments = [sites, name]) : isSiteCreationRequest request.path = true := by
  have hname : linkName request.path ≠ [] := by
    intro hnil
    rw [LinkRequest.segments, if_pos hnil] at h
    cases h
  have htrim : linkName request.path = SlashPath.trimRight request.path := by
    rw [linkName] at hname ⊢
    split
    next hdot => rw [if_pos hdot] at hname; exact absurd rfl hname
    next => rfl
  rw [LinkRequest.segments, if_neg hname, htrim] at h
  refine (isSiteCreationRequest_iff _).mpr ⟨name, [], h, ?_⟩
  have hlast := SlashPath.getLast?_split_ne_nil (htrim ▸ hname)
    (SlashPath.getLast?_trimRight_ne_slash request.path)
  rw [h] at hlast
  rintro rfl
  exact hlast rfl

/-! ## The handler -/

/-- A volume that is served under a name. -/
structure ServedVolume where
  store : NameStore
  hooks : Hooks
  readOnly : Bool

/-- What `handleLink` works on. -/
structure LinkServer where
  limiter : RateLimitModule
  volumes : GoString → Option ServedVolume

/-- A call of `handleLink`, with the time `CheckLimit` finds on the clock. -/
structure LinkCall where
  clientIP : GoString
  volume : GoString
  requests : List LinkRequest
  principal : PrincipalRef
  now : ℤ

/-- The name of the limit. -/
def siteCreation : GoString := "siteCreation".toList

/-- The bucket of an address. -/
def siteKey (clientIP : GoString) : BucketKey := ⟨"ip:".toList ++ clientIP, siteCreation⟩

namespace LinkCall

variable (call : LinkCall)

/-- The requests are those `handleLink` goes on with. -/
def valid : Bool :=
  !call.requests.isEmpty && call.requests.all fun request => validRelativePath request.path

/-- One of the requests is taken for a new site. -/
def recognised : Bool := call.requests.any fun request => isSiteCreationRequest request.path

/-- The call of `CheckLimit`. -/
def limitCall : LimitCall := ⟨"ip:".toList ++ call.clientIP, siteCreation, 1, call.now⟩

end LinkCall

namespace LinkServer

variable (E : Env) (server : LinkServer) (call : LinkCall)

/-- The rate limit of `handleLink`: the first request that is taken for a new site is
charged, and no other. -/
def checkSites : Option HttpError × LinkServer :=
  if call.recognised then
    ((server.limiter.checkLimit call.limitCall).1,
      { server with limiter := (server.limiter.checkLimit call.limitCall).2 })
  else (none, server)

/-- The server with another store in a volume. -/
def setStore (volume : ServedVolume) (store : NameStore) : LinkServer where
  limiter := server.limiter
  volumes := Function.update server.volumes call.volume (some { volume with store := store })

/-- `handleLink`, for a body that names a volume. -/
def handleLink : Except Halt LinkReply × LinkServer :=
  if !call.valid then (.ok (.error 400), server)
  else
    match server.checkSites call with
    | (some err, server) => (.ok (.error err.code), server)
    | (none, server) =>
        match server.volumes call.volume with
        | none => (.ok (.error 404), server)
        | some volume =>
            if volume.readOnly then (.ok (.error 403), server)
            else
              let (reply, store) :=
                Grits.handleLink E volume.hooks call.requests call.principal volume.store
              (reply, server.setStore call volume store)

/-- The call gets as far as `MultiLink`. -/
def Links : Prop :=
  call.valid = true ∧ (server.checkSites call).1 = none ∧
    ∃ volume, server.volumes call.volume = some volume ∧ volume.readOnly = false

/-- The names under `sites/` in a volume. -/
noncomputable def siteNames (E : Encoding) (volume : GoString) : Finset GoString :=
  match server.volumes volume with
  | none => ∅
  | some volume => Grits.siteNames E volume.store.rootAddr

/-- Every volume is a name store with its invariant. -/
def Stands : Prop :=
  ∀ name volume, server.volumes name = some volume → volume.hooks.ReadOnly E.toEncoding ∧
    ∃ root, Standing E.toEncoding root volume.store

end LinkServer

/-! ## The calls of one address -/

/-- A call, and the server that takes it. -/
structure LinkEvent where
  before : LinkServer
  call : LinkCall

/-- The names newly created under `sites/`. -/
noncomputable def LinkEvent.created (E : Env) (event : LinkEvent) : Finset GoString :=
  (event.before.handleLink E event.call).2.siteNames E.toEncoding event.call.volume \
    event.before.siteNames E.toEncoding event.call.volume

/-- The calls of one address to a server with these limits, in the order of their times.
Between two of them the server may do whatever leaves the bucket of the address alone. -/
inductive LinkHistory (E : Env) (entries : GoString → Option RateLimitEntry) (clientIP : GoString) :
    List LinkEvent → LinkServer → Prop
  | start {server : LinkServer} (hlimiter : server.limiter = newRateLimitModule entries)
      (hstands : server.Stands E) : LinkHistory E entries clientIP [] server
  | link {events : List LinkEvent} {server : LinkServer}
      (h : LinkHistory E entries clientIP events server) (call : LinkCall)
      (hclient : call.clientIP = clientIP) (hnow : ∀ event ∈ events, event.call.now ≤ call.now) :
      LinkHistory E entries clientIP (events ++ [⟨server, call⟩]) (server.handleLink E call).2
  | others {events : List LinkEvent} {server server' : LinkServer}
      (h : LinkHistory E entries clientIP events server)
      (hlimits : server'.limiter.limits = server.limiter.limits)
      (hbucket : server'.limiter.bucket (siteKey clientIP) =
        server.limiter.bucket (siteKey clientIP))
      (hstands : server'.Stands E) : LinkHistory E entries clientIP events server'

/-- The number of names that the calls create in a window of time. -/
noncomputable def createdIn (E : Env) (start stop : ℤ) (events : List LinkEvent) : ℕ :=
  ((events.filter fun event => start ≤ event.call.now ∧ event.call.now ≤ stop).map
    fun event => (event.created E).card).sum

/-- In any window no more names are created than the limit allows. -/
def WithinSiteLimit (E : Env) (cfg : RateLimitConfig) (events : List LinkEvent) : Prop :=
  ∀ start stop, start ≤ stop →
    (createdIn E start stop events : ℚ) ≤
      cfg.max + seconds (stop - start) * cfg.max / seconds cfg.duration

/-! ## What a call offers -/

/-- The request puts this name under `sites/`, alone or in a tree. -/
def LinkRequest.Offers (E : Encoding) (request : LinkRequest) (name : GoString) : Prop :=
  ∃ rest, [sites, name] = request.segments ++ rest ∧ E.walk request.value rest ≠ none

/-- A tree that the request links at `sites` or above is read as what it is. -/
def LinkRequest.ReadsSites (E : Encoding) (request : LinkRequest) : Prop :=
  ∀ name rest, [sites, name] = request.segments ++ rest →
    PathTree.ExactAlong E.entries E.Reads request.value rest

/-- The name is none that is there, and a request of the call puts it under `sites/`. -/
def LinkEvent.OffersNew (E : Env) (event : LinkEvent) (name : GoString) : Prop :=
  (∃ request ∈ event.call.requests, request.Offers E.toEncoding name) ∧
    name ∉ event.before.siteNames E.toEncoding event.call.volume

/-- A valid call that is refused finds a bucket that is full or drained, and one that links
offers at most one new name, and none without being charged. -/
structure LinkEvent.Metered (E : Env) (event : LinkEvent) : Prop where
  settled : event.call.valid = true → event.call.recognised = true →
    (event.before.limiter.checkLimit event.call.limitCall).1 ≠ none →
    ∀ cfg, event.before.limiter.limits siteCreation = some cfg →
      (event.before.limiter.bucket (siteKey event.call.clientIP)).Settled cfg event.call.now
  readable : event.before.Links event.call →
    ∀ request ∈ event.call.requests, request.ReadsSites E.toEncoding
  single : event.before.Links event.call →
    ∀ name name', event.OffersNew E name → event.OffersNew E name' → name = name'
  charged : event.before.Links event.call →
    ∀ name, event.OffersNew E name → event.call.recognised = true

/-! ## One call -/

namespace LinkServer

variable {server : LinkServer} {call : LinkCall}

theorem checkSites_volumes (server : LinkServer) (call : LinkCall) :
    (server.checkSites call).2.volumes = server.volumes := by
  rw [checkSites]
  split <;> rfl

theorem checkSites_limiter (server : LinkServer) (call : LinkCall) :
    (server.checkSites call).2.limiter =
      if call.recognised then (server.limiter.checkLimit call.limitCall).2 else server.limiter := by
  rw [checkSites]
  split <;> rfl

/-- A call that links hands its requests to the name store. -/
theorem handleLink_links (hvalid : call.valid = true) (hchecked : (server.checkSites call).1 = none)
    {volume : ServedVolume} (hvolume : server.volumes call.volume = some volume)
    (hreadOnly : volume.readOnly = false) :
    (server.handleLink E call).2 = (server.checkSites call).2.setStore call volume
      (Grits.handleLink E volume.hooks call.requests call.principal volume.store).2 := by
  have hvolume' : (server.checkSites call).2.volumes call.volume = some volume := by
    rw [checkSites_volumes, hvolume]
  rw [handleLink, hvalid]
  rcases hcheck : server.checkSites call with ⟨_ | err, next⟩
  · rw [hcheck] at hvolume'
    simp only at hvolume'
    simp [hvolume', hreadOnly]
  · rw [hcheck] at hchecked
    cases hchecked

/-- A valid call asks the limiter. -/
theorem handleLink_limiter (E : Env) (server : LinkServer) (call : LinkCall) :
    (server.handleLink E call).2.limiter =
      if call.valid then (server.checkSites call).2.limiter else server.limiter := by
  rw [handleLink]
  cases hvalid : call.valid with
  | false => rfl
  | true =>
      rcases server.checkSites call with ⟨_ | err, next⟩
      · cases hvolume : next.volumes call.volume with
        | none => simp [hvolume]
        | some volume => cases hreadOnly : volume.readOnly <;> simp [hvolume, hreadOnly, setStore]
      · rfl

/-- A call that does not link leaves the volumes alone. -/
theorem handleLink_of_not_links (h : ¬ server.Links call) :
    (server.handleLink E call).2.volumes = server.volumes := by
  have hvolumes := checkSites_volumes server call
  rw [handleLink]
  cases hvalid : call.valid with
  | false => rfl
  | true =>
      rcases hcheck : server.checkSites call with ⟨_ | err, next⟩
      · rw [hcheck] at hvolumes
        simp only at hvolumes
        cases hvolume : next.volumes call.volume with
        | none => simpa [hvolume] using hvolumes
        | some volume =>
            cases hreadOnly : volume.readOnly with
            | true => simpa [hvolume, hreadOnly] using hvolumes
            | false =>
                refine absurd ⟨hvalid, ?_, volume, ?_, hreadOnly⟩ h
                · rw [hcheck]
                · rw [← hvolumes, hvolume]
      · rw [hcheck] at hvolumes
        exact hvolumes

/-- After a call every volume is a name store with its invariant. -/
theorem Stands.handleLink (hdense : E.sparse = false) (h : server.Stands E) (call : LinkCall) :
    (server.handleLink E call).2.Stands E := by
  by_cases hlinks : server.Links call
  · obtain ⟨hvalid, hchecked, volume, hvolume, hreadOnly⟩ := hlinks
    obtain ⟨hhooks, root, holders, hinv, -⟩ := h _ _ hvolume
    obtain ⟨root', hstands, -⟩ :=
      handleLink_tree hdense hhooks hinv call.requests call.principal
    rw [handleLink_links hvalid hchecked hvolume hreadOnly]
    intro name other hother
    rw [setStore] at hother
    by_cases hname : name = call.volume
    · subst hname
      simp only [Function.update_self, Option.some.injEq] at hother
      subst hother
      exact ⟨hhooks, root', hstands⟩
    · simp only [Function.update_of_ne hname, checkSites_volumes] at hother
      exact h name other hother
  · intro name other hother
    rw [handleLink_of_not_links hlinks] at hother
    exact h name other hother

end LinkServer

namespace LinkEvent

variable {event : LinkEvent}

theorem created_of_not_links (h : ¬ event.before.Links event.call) : event.created E = ∅ := by
  rw [created, LinkServer.siteNames, LinkServer.handleLink_of_not_links h, ← LinkServer.siteNames,
    Finset.sdiff_self]

/-- What a call creates it has offered. -/
theorem Metered.offersNew (hdense : E.sparse = false) (h : event.Metered E)
    (hstands : event.before.Stands E) {name : GoString} (hname : name ∈ event.created E) :
    event.before.Links event.call ∧ event.OffersNew E name := by
  by_cases hlinks : event.before.Links event.call
  swap
  · rw [created_of_not_links hlinks] at hname
    exact absurd hname (Finset.notMem_empty name)
  rw [created, Finset.mem_sdiff] at hname
  obtain ⟨hafter, hbefore⟩ := hname
  refine ⟨hlinks, ?_, hbefore⟩
  have hreads := h.readable hlinks
  obtain ⟨hvalid, hchecked, volume, hvolume, hreadOnly⟩ := hlinks
  obtain ⟨hhooks, root, holders, hinv, -⟩ := hstands _ _ hvolume
  obtain ⟨root', ⟨-, -, hroot'⟩, htree⟩ :=
    handleLink_tree hdense hhooks hinv event.call.requests event.call.principal
  rw [LinkServer.handleLink_links hvalid hchecked hvolume hreadOnly] at hafter
  simp only [LinkServer.siteNames, LinkServer.setStore, Function.update_self, hroot'] at hafter
  rw [LinkServer.siteNames, hvolume] at hbefore
  rw [mem_siteNames] at hafter hbefore
  rcases htree with rfl | hlinked
  · exact absurd hafter hbefore
  · have hexact := hinv.heldTree.wellFormedTree.exactAlong [sites, name]
    have hvalues : ∀ update ∈ updatesOf event.call.requests, ∀ rest,
        [sites, name] = update.1 ++ rest → PathTree.ExactAlong E.entries E.Reads update.2 rest := by
      intro update hupdate rest hrest
      obtain ⟨request, hrequest, rfl⟩ := List.mem_map.mp hupdate
      exact hreads request hrequest name rest hrest
    rcases hlinked.updatedAll.walk_before Encoding.reads_unique hexact hvalues hafter with
      hthere | ⟨update, hupdate, hoffers⟩
    · exact absurd hthere hbefore
    · obtain ⟨request, hrequest, rfl⟩ := List.mem_map.mp hupdate
      exact ⟨request, hrequest, hoffers⟩

/-- A call creates at most one name, and if it creates one it has been charged. -/
theorem Metered.card_created (hdense : E.sparse = false) (h : event.Metered E)
    (hstands : event.before.Stands E) : (event.created E).card ≤ 1 ∧
      (event.created E ≠ ∅ → event.call.valid = true ∧ event.call.recognised = true ∧
        (event.before.limiter.checkLimit event.call.limitCall).1 = none) := by
  constructor
  · refine Finset.card_le_one.mpr fun name hname name' hname' => ?_
    obtain ⟨hlinks, hoffers⟩ := h.offersNew hdense hstands hname
    exact h.single hlinks name name' hoffers (h.offersNew hdense hstands hname').2
  · intro hne
    obtain ⟨name, hname⟩ := Finset.nonempty_iff_ne_empty.mpr hne
    obtain ⟨hlinks, hoffers⟩ := h.offersNew hdense hstands hname
    have hrecognised := h.charged hlinks name hoffers
    obtain ⟨hvalid, hchecked, -⟩ := hlinks
    rw [LinkServer.checkSites, if_pos hrecognised] at hchecked
    exact ⟨hvalid, hrecognised, hchecked⟩

/-- A call with one request, for something under `sites/` or below another name, is metered
if it is not refused on a partly drained bucket. -/
theorem metered_of_single {request : LinkRequest} (hrequests : event.call.requests = [request])
    (hlength : 2 ≤ request.segments.length)
    (hsettled : (event.before.limiter.checkLimit event.call.limitCall).1 ≠ none →
      ∀ cfg, event.before.limiter.limits siteCreation = some cfg →
        (event.before.limiter.bucket (siteKey event.call.clientIP)).Settled cfg event.call.now) :
    event.Metered E := by
  have hsegments : ∀ name rest, [sites, name] = request.segments ++ rest →
      request.segments = [sites, name] ∧ rest = [] := by
    intro name rest heq
    have hcount := congrArg List.length heq
    rw [List.length_append, List.length_cons, List.length_singleton] at hcount
    have hrest : rest = [] := List.eq_nil_of_length_eq_zero (by omega)
    rw [hrest, List.append_nil] at heq
    exact ⟨heq.symm, hrest⟩
  have hoffers : ∀ name, event.OffersNew E name → request.segments = [sites, name] := by
    rintro name ⟨⟨other, hother, rest, heq, -⟩, -⟩
    rw [hrequests, List.mem_singleton] at hother
    subst hother
    exact (hsegments name rest heq).1
  refine ⟨fun _ _ => hsettled, ?_, ?_, ?_⟩
  · intro _ other hother name rest heq
    rw [hrequests, List.mem_singleton] at hother
    subst hother
    rw [(hsegments name rest heq).2]
    trivial
  · intro _ name name' hname hname'
    have heq := (hoffers name hname).symm.trans (hoffers name' hname')
    simpa using heq
  · intro _ name hname
    rw [LinkCall.recognised, hrequests, List.any_cons,
      isSiteCreationRequest_of_segments (hoffers name hname), Bool.true_or]

end LinkEvent

/-! ## All calls -/

theorem createdIn_concat (E : Env) (start stop : ℤ) (events : List LinkEvent) (event : LinkEvent) :
    createdIn E start stop (events ++ [event]) = createdIn E start stop events +
      if start ≤ event.call.now ∧ event.call.now ≤ stop then (event.created E).card else 0 := by
  rw [createdIn, List.filter_append, List.map_append, List.sum_append, ← createdIn]
  by_cases hwindow : start ≤ event.call.now ∧ event.call.now ≤ stop
  · simp [hwindow]
  · simp [hwindow]

open RateLimitModule

/-- The calls of `CheckLimit` that a history has made, and what they paid for. -/
structure Ledger (E : Env) (entries : GoString → Option RateLimitEntry) (cfg : RateLimitConfig)
    (clientIP : GoString) (events : List LinkEvent) (server : LinkServer)
    (calls : List LimitCall) : Prop where
  stands : server.Stands E
  limits : server.limiter.limits = (newRateLimitModule entries).limits
  bucket : server.limiter.bucket (siteKey clientIP) =
    ((newRateLimitModule entries).after calls).bucket (siteKey clientIP)
  inOrder : calls.Pairwise fun call later => call.now ≤ later.now
  made : ∀ call ∈ calls, ∃ event ∈ events, event.call.now = call.now
  settled : RefusesSettled (newRateLimitModule entries) calls
  paid : ∀ start stop, (createdIn E start stop events : ℤ) ≤
    charged cfg (siteKey clientIP) start stop ((newRateLimitModule entries).accepted calls)

section History

variable {entries : GoString → Option RateLimitEntry} {cfg : RateLimitConfig}
  {clientIP : GoString} {events : List LinkEvent} {server : LinkServer} {calls : List LimitCall}

/-- A call that the limiter does not see creates nothing. -/
theorem Ledger.unseen (hdense : E.sparse = false)
    (h : Ledger E entries cfg clientIP events server calls) {call : LinkCall}
    (hmetered : (⟨server, call⟩ : LinkEvent).Metered E)
    (hunseen : (call.valid && call.recognised) = false) :
    Ledger E entries cfg clientIP (events ++ [⟨server, call⟩]) (server.handleLink E call).2 calls := by
  have hlimiter : (server.handleLink E call).2.limiter = server.limiter := by
    rw [LinkServer.handleLink_limiter, LinkServer.checkSites_limiter]
    cases hvalid : call.valid with
    | false => rfl
    | true =>
        rw [hvalid, Bool.true_and] at hunseen
        rw [hunseen]
        rfl
  have hnone : (⟨server, call⟩ : LinkEvent).created E = ∅ := by
    by_contra hne
    obtain ⟨hvalid, hrecognised, -⟩ := (hmetered.card_created hdense h.stands).2 hne
    rw [Bool.and_eq_false_iff] at hunseen
    rcases hunseen with hunseen | hunseen
    · rw [hunseen] at hvalid
      cases hvalid
    · rw [hunseen] at hrecognised
      cases hrecognised
  refine ⟨h.stands.handleLink hdense call, ?_, ?_, h.inOrder, ?_, h.settled, ?_⟩
  · rw [hlimiter, h.limits]
  · rw [hlimiter, h.bucket]
  · intro other hother
    obtain ⟨event, hevent, hnow⟩ := h.made other hother
    exact ⟨event, List.mem_append_left _ hevent, hnow⟩
  · intro start stop
    rw [createdIn_concat, hnone, Finset.card_empty, ite_self, Nat.add_zero]
    exact h.paid start stop

/-- A call that the limiter sees creates no more than it is charged. -/
theorem Ledger.seen (hdense : E.sparse = false)
    (h : Ledger E entries cfg clientIP events server calls) {call : LinkCall}
    (hmetered : (⟨server, call⟩ : LinkEvent).Metered E) (hclient : call.clientIP = clientIP)
    (hnow : ∀ event ∈ events, event.call.now ≤ call.now)
    (hvalid : call.valid = true) (hrecognised : call.recognised = true) :
    Ledger E entries cfg clientIP (events ++ [⟨server, call⟩]) (server.handleLink E call).2
      (calls ++ [call.limitCall]) := by
  have hkey : call.limitCall.key = siteKey clientIP := by
    rw [← hclient]
    rfl
  have hlimiter : (server.handleLink E call).2.limiter =
      (server.limiter.checkLimit call.limitCall).2 := by
    rw [LinkServer.handleLink_limiter, LinkServer.checkSites_limiter, hvalid, hrecognised]
    rfl
  have hlimits : server.limiter.limits = ((newRateLimitModule entries).after calls).limits := by
    rw [limits_after, h.limits]
  have hagrees : server.limiter.bucket call.limitCall.key =
      ((newRateLimitModule entries).after calls).bucket call.limitCall.key := by
    rw [hkey]
    exact h.bucket
  obtain ⟨hanswer, hbucket⟩ := checkLimit_agrees hlimits hagrees
  refine ⟨h.stands.handleLink hdense call, ?_, ?_, ?_, ?_, ?_, ?_⟩
  · rw [hlimiter, limits_checkLimit, h.limits]
  · rw [hlimiter, after_concat, ← hkey, hbucket]
  · refine List.pairwise_append.mpr ⟨h.inOrder, List.pairwise_singleton _ _, ?_⟩
    intro other hother last hlast
    rw [List.mem_singleton] at hlast
    subst hlast
    obtain ⟨event, hevent, htime⟩ := h.made other hother
    rw [← htime]
    exact hnow event hevent
  · intro other hother
    rcases List.mem_append.mp hother with hother | hother
    · obtain ⟨event, hevent, htime⟩ := h.made other hother
      exact ⟨event, List.mem_append_left _ hevent, htime⟩
    · rw [List.mem_singleton] at hother
      subst hother
      exact ⟨_, List.mem_append_right _ (List.mem_singleton_self _), rfl⟩
  · refine h.settled.concat fun hrefused cfg' hcfg' => ?_
    rw [← hanswer] at hrefused
    rw [hkey, ← h.bucket]
    have hsettled := hmetered.settled hvalid hrecognised hrefused cfg' (h.limits ▸ hcfg')
    simp only [hclient] at hsettled
    exact hsettled
  · intro start stop
    obtain ⟨hcard, hpaid⟩ := hmetered.card_created hdense h.stands
    rw [createdIn_concat, accepted_concat, charged_append]
    push_cast
    refine add_le_add (h.paid start stop) ?_
    by_cases hallowed : ((newRateLimitModule entries).after calls |>.checkLimit call.limitCall).1 = none
    · rw [if_pos hallowed]
      by_cases hwindow : start ≤ call.now ∧ call.now ≤ stop
      · have hcharged : charged cfg (siteKey clientIP) start stop [call.limitCall] = 1 := by
          have hcharge : cfg.charge call.limitCall.cost = 1 := cfg.charge_of_pos Int.one_pos
          have hin : start ≤ call.limitCall.now ∧ call.limitCall.now ≤ stop := hwindow
          simp [charged, hkey, hin, hcharge]
        rw [if_pos hwindow, hcharged]
        exact_mod_cast hcard
      · rw [if_neg hwindow]
        have hout : ¬ (start ≤ call.limitCall.now ∧ call.limitCall.now ≤ stop) := hwindow
        simp [charged, hout]
    · rw [if_neg hallowed]
      have hempty : (⟨server, call⟩ : LinkEvent).created E = ∅ := by
        by_contra hne
        exact hallowed (hanswer ▸ (hpaid hne).2.2)
      simp [hempty, charged]

/-- Every history has a ledger, if all its calls are metered. -/
theorem LinkHistory.ledger (hdense : E.sparse = false) (cfg : RateLimitConfig)
    (h : LinkHistory E entries clientIP events server)
    (hmetered : ∀ event ∈ events, event.Metered E) :
    ∃ calls, Ledger E entries cfg clientIP events server calls := by
  induction h with
  | start hlimiter hstands =>
      refine ⟨[], hstands, ?_, ?_, .nil, ?_, trivial, fun start stop => le_rfl⟩
      · rw [hlimiter]
      · rw [hlimiter]
        rfl
      · exact fun call hcall => absurd hcall List.not_mem_nil
  | @link events server _ call hclient hnow ih =>
      obtain ⟨calls, hledger⟩ := ih fun event hevent =>
        hmetered event (List.mem_append_left _ hevent)
      have hlast := hmetered ⟨server, call⟩ (List.mem_append_right _ (List.mem_singleton_self _))
      cases hseen : call.valid && call.recognised with
      | false => exact ⟨calls, hledger.unseen hdense hlast hseen⟩
      | true =>
          rw [Bool.and_eq_true] at hseen
          exact ⟨_, hledger.seen hdense hlast hclient hnow hseen.1 hseen.2⟩
  | others _ hlimits hbucket hstands ih =>
      obtain ⟨calls, hledger⟩ := ih hmetered
      refine ⟨calls, hstands, ?_, ?_, hledger.inOrder, hledger.made, hledger.settled,
        hledger.paid⟩
      · rw [hlimits, hledger.limits]
      · rw [hbucket, hledger.bucket]

/-- Where every call is metered, no window of time has more new names than the limit
allows. -/
theorem siteCreation_bounded (hdense : E.sparse = false)
    (hcfg : (newRateLimitModule entries).limits siteCreation = some cfg)
    (h : LinkHistory E entries clientIP events server)
    (hmetered : ∀ event ∈ events, event.Metered E) : WithinSiteLimit E cfg events := by
  intro start stop hwindow
  obtain ⟨calls, hledger⟩ := h.ledger hdense cfg hmetered
  have horder : InOrder (newRateLimitModule entries) calls :=
    ⟨hledger.inOrder, fun _ _ hlast => by cases hlast⟩
  have hbound := (checkLimit_bounded horder hledger.settled).bounded (siteKey clientIP) cfg hcfg
    start stop hwindow
  have hpaid : (createdIn E start stop events : ℚ) ≤ charged cfg (siteKey clientIP) start stop
      ((newRateLimitModule entries).accepted calls) := by
    exact_mod_cast hledger.paid start stop
  exact hpaid.trans hbound

end History

/-! ### A batch of two sites -/

/-- The names are the entries of `sites`. -/
theorem siteNames_of_dirAt {E : Encoding} {root addr : BlobAddr} {children names : Children}
    (hroot : E.DirAt root children) (hchild : children.lookup sites = some addr)
    (hsites : E.DirAt addr names) : siteNames E root = names.keys := by
  have hwalk : E.walk (some root) [sites] = some addr := by
    rw [Encoding.walk, PathTree.walk_cons, hroot.child, hchild]
    rfl
  rw [siteNames, hwalk]
  simp only
  rw [Encoding.childrenAt_eq_some_iff.mpr hsites, Option.getD_some]

namespace Table

/-- The two blobs of a directory that holds `sites`. -/
def sitesRoot (content addr : Char) (child : BlobAddr) : List KnownBlob :=
  [⟨[UInt8.ofNat content.toNat], ['Q', 'm', content], .directory (.single sites child)⟩,
    ⟨[UInt8.ofNat addr.toNat], ['Q', 'm', addr],
      .metadata ⟨.directory, 1, ['Q', 'm', content], 0o755, []⟩⟩]

/-- A file, and roots with no site, with `a`, and with `a` and `b`. -/
def siteTable : List KnownBlob :=
  shortDirectory 'e' 'E' 0o755 [] ++ shortFile 'f' 'F' ++ sitesRoot 's' 'S' ['Q', 'm', 'E'] ++
    shortDirectory 'a' 'A' 0o755 [('a', ['Q', 'm', 'F'])] ++ sitesRoot 'r' 'R' ['Q', 'm', 'A'] ++
    shortDirectory 'b' 'B' 0o755 [('a', ['Q', 'm', 'F']), ('b', ['Q', 'm', 'F'])] ++
    sitesRoot 't' 'T' ['Q', 'm', 'B']

theorem proper_siteTable : Proper siteTable := by decide +kernel

abbrev siteEnv : Env := shortEnv siteTable proper_siteTable

/-- A volume without sites. -/
def siteVolume : NameStore := shortVolume proper_siteTable ['Q', 'm', 'S']

theorem reachable_siteVolume : Reachable siteEnv 0 siteVolume :=
  reachable_shortVolume proper_siteTable (by decide +kernel) (by decide +kernel)

example : siteVolume.rootAddr = ['Q', 'm', 'S'] := by decide +kernel

/-- One site an hour. -/
def hourly : GoString → Option RateLimitEntry := fun name =>
  if name = siteCreation then some ⟨1, 3600 * 10 ^ 9, 0, by decide, by decide⟩ else none

/-- The server, just started. -/
def siteServer : LinkServer where
  limiter := newRateLimitModule hourly
  volumes := fun name => if name = "v".toList then some ⟨siteVolume, Hooks.none, false⟩ else none

/-- A call that links the file under these paths. -/
def linkFiles (paths : List String) : LinkCall where
  clientIP := "192.0.2.1".toList
  volume := "v".toList
  requests := paths.map fun path => ⟨path.toList, ['Q', 'm', 'F'], [], 0⟩
  principal := .backend
  now := 0

theorem stands_siteServer : siteServer.Stands siteEnv := by
  intro name volume hvolume
  rw [siteServer] at hvolume
  simp only at hvolume
  split at hvolume
  · cases hvolume
    exact ⟨Hooks.none_readOnly _, siteVolume.rootAddr, 0, reachable_siteVolume.inv rfl, rfl⟩
  · cases hvolume

theorem history_linkFiles (paths : List String) :
    LinkHistory siteEnv hourly "192.0.2.1".toList [⟨siteServer, linkFiles paths⟩]
      (siteServer.handleLink siteEnv (linkFiles paths)).2 :=
  .link (.start rfl stands_siteServer) _ rfl fun _ hevent => absurd hevent List.not_mem_nil

/-- The limit of one site an hour. -/
def hourlyConfig : RateLimitConfig :=
  newRateLimitConfig siteCreation ⟨1, 3600 * 10 ^ 9, 0, by decide, by decide⟩

theorem hourly_limits : (newRateLimitModule hourly).limits siteCreation = some hourlyConfig := rfl

/-- The root without sites. -/
theorem siteNames_empty : siteNames siteEnv.toEncoding ['Q', 'm', 'S'] = ∅ := by
  have hroot : siteEnv.DirAt ['Q', 'm', 'S'] (.single sites ['Q', 'm', 'E']) :=
    dirAt_of_entry proper_siteTable siteTable[4] siteTable[5] (List.getElem_mem _)
      (List.getElem_mem _) rfl rfl rfl rfl rfl (by decide)
  have hsites : siteEnv.DirAt ['Q', 'm', 'E'] ∅ :=
    dirAt_of_rows proper_siteTable siteTable[0] siteTable[1] (List.getElem_mem _)
      (List.getElem_mem _) rfl rfl rfl rfl rfl nofun
  exact siteNames_of_dirAt hroot Finmap.lookup_singleton_eq hsites

/-- The root with two sites. -/
theorem siteNames_two : (siteNames siteEnv.toEncoding ['Q', 'm', 'T']).card = 2 := by
  have hroot : siteEnv.DirAt ['Q', 'm', 'T'] (.single sites ['Q', 'm', 'B']) :=
    dirAt_of_entry proper_siteTable siteTable[12] siteTable[13] (List.getElem_mem _)
      (List.getElem_mem _) rfl rfl rfl rfl rfl (by decide)
  have hsites : siteEnv.DirAt ['Q', 'm', 'B'] ([⟨['a'], ['Q', 'm', 'F']⟩,
      ⟨['b'], ['Q', 'm', 'F']⟩] : List (Σ _ : GoString, BlobAddr)).toFinmap :=
    dirAt_of_rows proper_siteTable siteTable[10] siteTable[11] (List.getElem_mem _)
      (List.getElem_mem _) rfl rfl rfl rfl rfl (wellFormed_toFinmap (by decide))
  rw [siteNames_of_dirAt hroot Finmap.lookup_singleton_eq hsites]
  rfl

theorem siteServer_volume (call : LinkCall) (h : call.volume = "v".toList) :
    siteServer.volumes call.volume = some ⟨siteVolume, Hooks.none, false⟩ := if_pos h

/-- The names after the batch. -/
theorem created_linkFiles :
    (⟨siteServer, linkFiles ["sites/a", "sites/b"]⟩ : LinkEvent).created siteEnv =
      siteNames siteEnv.toEncoding ['Q', 'm', 'T'] := by
  have hroot : (handleLink siteEnv Hooks.none (linkFiles ["sites/a", "sites/b"]).requests
      (linkFiles ["sites/a", "sites/b"]).principal siteVolume).2.rootAddr = ['Q', 'm', 'T'] := by
    decide +kernel
  have hbefore : siteVolume.rootAddr = ['Q', 'm', 'S'] := by decide +kernel
  have hvolume := siteServer_volume (linkFiles ["sites/a", "sites/b"]) rfl
  have hafter := LinkServer.handleLink_links (E := siteEnv) (by decide +kernel) (by decide +kernel)
    hvolume rfl
  generalize linkFiles ["sites/a", "sites/b"] = call at hroot hvolume hafter ⊢
  rw [LinkEvent.created, hafter, LinkServer.siteNames, LinkServer.siteNames]
  simp only [LinkServer.setStore, Function.update_self, hvolume]
  rw [hroot, hbefore, siteNames_empty, Finset.sdiff_empty]

end Table

/-- One call creates two sites where one an hour is allowed. -/
theorem siteCreation_exceeded :
    ∃ server, LinkHistory Table.siteEnv Table.hourly "192.0.2.1".toList
        [⟨Table.siteServer, Table.linkFiles ["sites/a", "sites/b"]⟩] server ∧
      ¬ WithinSiteLimit Table.siteEnv Table.hourlyConfig
        [⟨Table.siteServer, Table.linkFiles ["sites/a", "sites/b"]⟩] := by
  refine ⟨_, Table.history_linkFiles _, fun hlimit => ?_⟩
  have hwindow := hlimit 0 0 le_rfl
  have hcreated : createdIn Table.siteEnv 0 0
      [⟨Table.siteServer, Table.linkFiles ["sites/a", "sites/b"]⟩] = 2 := by
    have hin : (0 : ℤ) ≤ (Table.linkFiles ["sites/a", "sites/b"]).now ∧
        (Table.linkFiles ["sites/a", "sites/b"]).now ≤ 0 := ⟨le_rfl, le_rfl⟩
    have hcard := Table.siteNames_two
    rw [← Table.created_linkFiles] at hcard
    simp [createdIn, hin, hcard]
  rw [hcreated] at hwindow
  have hexceeded : ¬ (((2 : ℕ) : ℚ) ≤ (Table.hourlyConfig.max : ℚ) +
      seconds (0 - 0) * Table.hourlyConfig.max / seconds Table.hourlyConfig.duration) := by
    decide +kernel
  exact hexceeded hwindow

theorem siteCreation_bounded_one :
    WithinSiteLimit Table.siteEnv Table.hourlyConfig
      [⟨Table.siteServer, Table.linkFiles ["sites/a"]⟩] := by
  refine siteCreation_bounded rfl Table.hourly_limits (Table.history_linkFiles _) ?_
  intro event hevent
  rw [List.mem_singleton] at hevent
  subst hevent
  refine LinkEvent.metered_of_single rfl (by decide +kernel) fun hrefused => ?_
  have hallowed : (Table.siteServer.limiter.checkLimit
      (Table.linkFiles ["sites/a"]).limitCall).1 = none := by decide +kernel
  exact absurd hallowed hrefused

end Grits

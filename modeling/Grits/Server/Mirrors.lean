import Grits.Library.SlashPath
import Grits.Library.UrlHost
import Mathlib.Data.Finmap

/-!
# The mirrors of an origin server

`OriginModule.IsMirrorAllowed` compares what stands before the first colon of a
URL, after `http://` or `https://`, with the same part of each allowed entry.
In a URL with a password that part is the name of a user, in one with an IPv6
address it is a bracket, and under another scheme it is that scheme.

A URL is read as `net/url` does.  Where it has no scheme, `https://` is put in
front of it, as `ListMirrorsHandler` does for the clients.
-/

namespace Grits

namespace OriginMirrors

/-! ## The registration -/

/-- "Remove protocol if present" -/
def withoutProtocol (url : GoString) : GoString :=
  if "http://".toList.isPrefixOf url then url.drop 7
  else if "https://".toList.isPrefixOf url then url.drop 8
  else url

/-- "Remove port if present" -/
def withoutPort (host : GoString) : GoString := host.takeWhile (· ≠ ':')

structure MirrorInfo where
  hostname : GoString
  lastRegistration : ℤ
  isActive : Bool

/-- The host that a client connects to for a URL. -/
def connectsTo (url : GoString) : Option (List UInt8) :=
  match Url.getScheme url with
  | some (_, '/' :: '/' :: rest) => Url.hostAfterScheme rest
  | _ => Url.hostAfterScheme url

/-- A host name, with `http://` or `https://`, a port and a path where these are given. -/
def HostEntry (allowed : GoString) : Prop :=
  ∃ name port path, Url.IsName name ∧ Url.IsPortSuffix port ∧ Url.EndsAuthority path ∧
    withoutProtocol allowed = name ++ port ++ path

/-- If the URL begins, after `http://` or `https://`, with a name that ends in a colon or with
the URL, then that name is its host. -/
def BeginsWithHost (localURL : GoString) : Prop :=
  ∀ name, Url.IsName name →
    (withoutProtocol localURL = name ∨ ∃ tail, withoutProtocol localURL = name ++ ':' :: tail) →
      ∀ host, connectsTo localURL = some host → Url.lookup name = some host

/-! ## Before the first colon -/

theorem withoutPort_append {host : GoString} (h : ':' ∉ host) (tail : GoString) :
    withoutPort (host ++ tail) = host ++ withoutPort tail := by
  unfold withoutPort
  apply List.takeWhile_append_of_pos
  intro c hc
  rw [decide_eq_true_eq]
  rintro rfl
  exact h hc

theorem withoutPort_cons {c : Char} (h : c ≠ ':') (tail : GoString) :
    withoutPort (c :: tail) = c :: withoutPort tail :=
  List.takeWhile_cons_of_pos (decide_eq_true h)

theorem withoutPort_colon {host : GoString} (h : ':' ∉ host) (tail : GoString) :
    withoutPort (host ++ ':' :: tail) = host := by
  rw [withoutPort_append h, withoutPort, List.takeWhile_cons_of_neg (by decide), List.append_nil]

theorem withoutPort_of_notMem {host : GoString} (h : ':' ∉ host) : withoutPort host = host := by
  have happend := withoutPort_append h []
  rw [List.append_nil] at happend
  exact happend.trans (List.append_nil host)

/-- What is cut off begins with a colon. -/
theorem withoutPort_cases (host : GoString) :
    host = withoutPort host ∨ ∃ tail, host = withoutPort host ++ ':' :: tail := by
  have hsplit := List.takeWhile_append_dropWhile (p := fun c => decide (c ≠ ':')) (l := host)
  cases hrest : host.dropWhile fun c => decide (c ≠ ':') with
  | nil =>
      rw [hrest, List.append_nil] at hsplit
      exact .inl hsplit.symm
  | cons c tail =>
      have hc := List.head?_dropWhile_not (fun c => decide (c ≠ ':')) host
      rw [hrest] at hc hsplit
      have hcolon : c = ':' := by simpa using hc
      rw [hcolon] at hsplit
      exact .inr ⟨tail, hsplit.symm⟩

/-- Two hosts are compared up to the first colon. -/
theorem withoutPort_eq_iff {name host : GoString} (h : ':' ∉ name) :
    withoutPort host = name ↔ host = name ∨ ∃ tail, host = name ++ ':' :: tail := by
  constructor
  · rintro rfl
    exact withoutPort_cases host
  · rintro (rfl | ⟨tail, rfl⟩)
    · exact withoutPort_of_notMem h
    · exact withoutPort_colon h tail

/-! ## The scheme -/

theorem getScheme_eq_some {url scheme rest : GoString}
    (h : Url.getScheme url = some (scheme, rest)) :
    url = scheme ++ ':' :: rest ∧ ∀ c ∈ scheme, Url.isSchemeChar c = true := by
  unfold Url.getScheme at h
  have hsplit := List.takeWhile_append_dropWhile (p := Url.isSchemeChar) (l := url)
  have hchars := List.all_takeWhile (p := Url.isSchemeChar) (l := url)
  split at h
  next first scheme' rest' htake hdrop =>
    split at h
    next =>
      rw [Option.some.injEq, Prod.mk.injEq] at h
      obtain ⟨rfl, rfl⟩ := h
      rw [htake, hdrop] at hsplit
      rw [htake, List.all_eq_true] at hchars
      exact ⟨hsplit.symm, hchars⟩
    next => cases h
  next => cases h

/-- Unless the URL has another scheme, its host is in what is left without the protocol. -/
theorem connectsTo_cases (url : GoString) :
    connectsTo url = Url.hostAfterScheme (withoutProtocol url) ∨
      ∃ scheme rest, withoutProtocol url = scheme ++ ':' :: '/' :: '/' :: rest ∧
        ∀ c ∈ scheme, Url.isSchemeChar c = true := by
  unfold withoutProtocol
  split
  next hhttp =>
    rw [List.isPrefixOf_iff_prefix] at hhttp
    obtain ⟨rest, rfl⟩ := hhttp
    exact .inl rfl
  next =>
    split
    next hhttps =>
      rw [List.isPrefixOf_iff_prefix] at hhttps
      obtain ⟨rest, rfl⟩ := hhttps
      exact .inl rfl
    next =>
      unfold connectsTo
      split
      next scheme rest hscheme => exact .inr ⟨scheme, rest, getScheme_eq_some hscheme⟩
      next => exact .inl rfl

theorem colon_notMem_scheme {scheme : GoString} (h : ∀ c ∈ scheme, Url.isSchemeChar c = true) :
    ':' ∉ scheme := fun hmem => absurd (h ':' hmem) (by decide)

/-- A path that begins before the first colon is not behind a scheme. -/
theorem ne_scheme_append {name path scheme rest : GoString} (hname : ':' ∉ name)
    (hpath : Url.EndsAuthority path) (hscheme : ∀ c ∈ scheme, Url.isSchemeChar c = true) :
    name ++ path ≠ scheme ++ ':' :: rest := by
  intro heq
  have hhead : ∀ c ∈ path.head?, c ≠ ':' ∧ Url.isSchemeChar c = false := by
    intro c hc
    rcases hpath c hc with rfl | rfl | rfl <;> decide
  rcases List.append_eq_append_iff.mp heq with ⟨more, rfl, hmore⟩ | ⟨more, rfl, hmore⟩
  · cases more with
    | nil => exact (hhead ':' (by rw [hmore]; rfl)).1 rfl
    | cons c more =>
        have hc := (hhead c (by rw [hmore]; rfl)).2
        rw [hscheme c (List.mem_append_right _ List.mem_cons_self)] at hc
        cases hc
  · cases more with
    | nil =>
        rw [List.nil_append] at hmore
        exact (hhead ':' (by rw [← hmore]; rfl)).1 rfl
    | cons c more =>
        rw [List.cons_append, List.cons.injEq] at hmore
        rw [← hmore.1] at hname
        exact hname (List.mem_append_right _ List.mem_cons_self)

/-- The host of an entry is its name. -/
theorem connectsTo_entry {name port path url : GoString} (hname : Url.IsName name)
    (hport : Url.IsPortSuffix port) (hpath : Url.EndsAuthority path)
    (hurl : withoutProtocol url = name ++ port ++ path) : connectsTo url = Url.lookup name := by
  rcases connectsTo_cases url with hhost | ⟨scheme, rest, hscheme, hchars⟩
  · rw [hhost, hurl, hname.hostAfterScheme_eq hport hpath]
  · rw [hurl] at hscheme
    rcases hport with rfl | ⟨digits, hne, hdigits, rfl⟩
    · rw [List.append_nil] at hscheme
      exact absurd hscheme (ne_scheme_append hname.colon_notMem hpath hchars)
    · have hbefore := congrArg withoutPort hscheme
      rw [List.append_assoc, List.cons_append, withoutPort_colon hname.colon_notMem,
        withoutPort_colon (colon_notMem_scheme hchars)] at hbefore
      subst hbefore
      rw [List.append_assoc, List.append_cancel_left_eq, List.cons_append,
        List.cons.injEq] at hscheme
      obtain ⟨digit, digits', rfl⟩ := List.exists_cons_of_ne_nil hne
      rw [List.cons_append, List.cons.injEq] at hscheme
      have hdigit := List.all_eq_true.mp hdigits digit List.mem_cons_self
      rw [hscheme.2.1] at hdigit
      exact absurd hdigit (by decide)

/-! ## When only allowed hosts are admitted -/

/-- An entry admits no URL of another host that begins with its own host. -/
theorem BeginsWithHost.connectsTo {allowed localURL : GoString} (h : BeginsWithHost localURL)
    (hentry : HostEntry allowed)
    (hmatch : withoutPort (withoutProtocol allowed) = withoutPort (withoutProtocol localURL))
    {host : List UInt8} (hhost : connectsTo localURL = some host) :
    connectsTo allowed = some host := by
  obtain ⟨name, port, path, hname, hport, hpath, hallowed⟩ := hentry
  rw [connectsTo_entry hname hport hpath hallowed]
  rw [hallowed] at hmatch
  have hbegins : withoutPort (withoutProtocol localURL) = name → Url.lookup name = some host :=
    fun heq => h name hname ((withoutPort_eq_iff hname.colon_notMem).mp heq) host hhost
  rcases hport with rfl | ⟨digits, -, -, rfl⟩
  · rw [List.append_nil] at hmatch
    cases path with
    | nil =>
        rw [List.append_nil, withoutPort_of_notMem hname.colon_notMem] at hmatch
        exact hbegins hmatch.symm
    | cons c path =>
        -- the path begins before the first colon, so both have the same authority
        have hc : c ≠ ':' := by
          rcases hpath c rfl with rfl | rfl | rfl <;> decide
        rw [withoutPort_append hname.colon_notMem, withoutPort_cons hc] at hmatch
        obtain ⟨path', hurl⟩ : ∃ path', withoutProtocol localURL = name ++ [] ++ c :: path' := by
          rcases withoutPort_cases (withoutProtocol localURL) with heq | ⟨tail, heq⟩
          · exact ⟨withoutPort path, by rw [heq, ← hmatch, List.append_nil]⟩
          · exact ⟨withoutPort path ++ ':' :: tail, by rw [heq, ← hmatch]; simp⟩
        have hpath' : Url.EndsAuthority (c :: path') := hpath
        rw [← connectsTo_entry hname (.inl rfl) hpath' hurl]
        exact hhost
  · rw [List.append_assoc, List.cons_append, withoutPort_colon hname.colon_notMem] at hmatch
    exact hbegins hmatch.symm

/-- URLs like the entries do. -/
theorem HostEntry.beginsWithHost {url : GoString} (h : HostEntry url) : BeginsWithHost url := by
  obtain ⟨name, port, path, hname, hport, hpath, hurl⟩ := h
  intro name' hname' hbegins host hhost
  have hname'_eq := (withoutPort_eq_iff hname'.colon_notMem).mpr hbegins
  rw [connectsTo_entry hname hport hpath hurl] at hhost
  rw [hurl] at hname'_eq
  have heq : name' = name := by
    rcases hport with rfl | ⟨digits, -, -, rfl⟩
    · rw [List.append_nil, withoutPort_append hname.colon_notMem] at hname'_eq
      cases path with
      | nil => rw [← hname'_eq]; exact List.append_nil name
      | cons c path =>
          have hc : c ≠ ':' ∧ c.toNat < 0x80 ∧ Url.isHostChar c = false := by
            rcases hpath c rfl with rfl | rfl | rfl <;> decide
          have hmem : c ∈ name' := by
            rw [← hname'_eq, withoutPort_cons hc.1]
            exact List.mem_append_right _ List.mem_cons_self
          exact absurd hmem (hname'.notMem hc.2.1 hc.2.2)
    · rw [List.append_assoc, List.cons_append, withoutPort_colon hname.colon_notMem] at hname'_eq
      exact hname'_eq.symm
  rw [heq]
  exact hhost

/-- A URL with a password does only if the user has the name of the host. -/
theorem beginsWithHost_password_iff {user password name port path : GoString}
    (huser : Url.IsName user) (hpassword : ∀ c ∈ password, c ≠ '/' ∧ c ≠ '?' ∧ c ≠ '#')
    (hname : Url.IsName name) (hport : Url.IsPortSuffix port) (hpath : Url.EndsAuthority path) :
    BeginsWithHost ("https://".toList ++
        (user ++ ':' :: password ++ '@' :: (name ++ port ++ path))) ↔
      Url.lookup user = Url.lookup name := by
  have huserinfo : ∀ c ∈ user ++ ':' :: password, c ≠ '/' ∧ c ≠ '?' ∧ c ≠ '#' := by
    intro c hc
    rcases List.mem_append.mp hc with hc | hc
    · exact huser.separators (.inl rfl) c (by rwa [List.append_nil])
    · rcases List.mem_cons.mp hc with rfl | hc
      · decide
      · exact hpassword c hc
  have hconnects : connectsTo ("https://".toList ++
      (user ++ ':' :: password ++ '@' :: (name ++ port ++ path))) = Url.lookup name :=
    hname.hostAfterScheme_userinfo huserinfo hport hpath
  have hwithout : withoutProtocol ("https://".toList ++
      (user ++ ':' :: password ++ '@' :: (name ++ port ++ path))) =
        user ++ ':' :: (password ++ '@' :: (name ++ port ++ path)) := by
    rw [← List.cons_append, ← List.cons_append]
    exact List.append_assoc user _ _
  constructor
  · intro h
    rw [hname.lookup_eq] at hconnects ⊢
    exact h user huser (.inr ⟨_, hwithout⟩) _ hconnects
  · intro h user' huser' hbegins host hhost
    have huser'_eq := (withoutPort_eq_iff huser'.colon_notMem).mpr hbegins
    rw [hwithout, withoutPort_colon huser.colon_notMem] at huser'_eq
    rw [← huser'_eq, h, ← hconnects]
    exact hhost

end OriginMirrors

end Grits

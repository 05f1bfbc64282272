import McpToolkit.Policy.KernelAdapters

/-!
# McpToolkit.Policy.GatewayScopes — gateway scopes and the spelling of a path

The gateway compares raw segments with the words of its table.  A server behind it decodes the path first, so
what it serves is decided by the decoded segments.  A word that is written with an escape is not seen, and the
family falls back to the realm (`scopeFamily_eq`): two spellings of one resource ask for the same scope exactly
if they write the words that name the resource alike.
-/

namespace McpToolkit.Policy.KernelAdapters

open List
open Lib.Percent (Escaped decode decode_eq_nil)
open Lib.Segments
open Lib.Text (ascii)

/-- The path checks of `gateway_decision`. -/
def pathAccepted (path : Text) : Bool :=
  !kernelGatewayPathDenied (utf8 path) (pathSegments (utf8 path)) && !(pathSegments (utf8 path)).isEmpty

/-- Equal after one percent-decoding and collapsing of repeated slashes; a malformed escape stands for itself. -/
def SamePath (p q : Text) : Prop :=
  collapse slash false (decode (utf8 p)) = collapse slash false (decode (utf8 q))

instance (p q : Text) : Decidable (SamePath p q) := inferInstanceAs (Decidable (_ = _))

/-- The first two segments of the path of a realm. -/
def BelowAdmin (segs : List (List UInt8)) : Prop :=
  segs[0]? = some (ascii "admin") ∧ segs[1]? = some (ascii "realms")

instance (segs : List (List UInt8)) : Decidable (BelowAdmin segs) := inferInstanceAs (Decidable (_ ∧ _))

/-- The position of the word that names a family, and the family, if it is another than the realm. -/
def familyAt (segs : List (List UInt8)) : ℕ := if BelowAdmin segs then 3 else 1

def namedFamily (segs : List (List UInt8)) : Option ScopeFamily := segs[familyAt segs]?.bind resourceFamily

/-- The positions of the words that the gateway must see. -/
def namedAt (segs : List (List UInt8)) : List ℕ :=
  if (namedFamily segs).isNone then [] else if BelowAdmin segs then [0, 1, 3] else [1]

/-- The words that name the resource are written without an escape. -/
def NamedPlainly (segs : List (List UInt8)) : Prop :=
  ∀ i ∈ namedAt (segs.map decode), segs[i]? = (segs.map decode)[i]?

instance (segs : List (List UInt8)) : Decidable (NamedPlainly segs) :=
  inferInstanceAs (Decidable (∀ i ∈ namedAt (segs.map decode), segs[i]? = (segs.map decode)[i]?))

/-- Two paths write the words that the gateway looks for alike: the name of the resource, and below the clients
the word `client-secret`. -/
def SpelledAlike (p q : Text) : Prop :=
  (NamedPlainly (pathSegments (utf8 p)) ↔ NamedPlainly (pathSegments (utf8 q))) ∧
    (NamedPlainly (pathSegments (utf8 p)) → scopeFamily ((pathSegments (utf8 p)).map decode) = .clients →
      ((pathSegments (utf8 p)).contains (ascii "client-secret") =
        (pathSegments (utf8 q)).contains (ascii "client-secret")))

instance (p q : Text) : Decidable (SpelledAlike p q) := inferInstanceAs (Decidable (_ ∧ _))

/-! ### Words -/

theorem resourceFamily_spec {segment : List UInt8} {family : ScopeFamily}
    (h : resourceFamily segment = some family) : decode segment = segment ∧ family ≠ .realm := by
  have htable : resourceFamilies.all (fun entry =>
      decode (ascii entry.1) == ascii entry.1 && entry.2 != .realm) = true := by
    decide +kernel
  obtain ⟨entry, hentry, rfl⟩ := Option.map_eq_some_iff.mp h
  obtain rfl : ascii entry.1 = segment := by simpa using find?_some hentry
  simpa using all_eq_true.mp htable entry (mem_of_find?_eq_some hentry)

theorem decode_admin : decode (ascii "admin") = ascii "admin" := by decide +kernel

theorem decode_realms : decode (ascii "realms") = ascii "realms" := by decide +kernel

section Families

variable {segs : List (List UInt8)} {word : List UInt8} {i : ℕ}

theorem decoded_of_seen (hword : decode word = word) (h : segs[i]? = some word) :
    (segs.map decode)[i]? = some word := by
  rw [getElem?_map, h, Option.map_some, hword]

theorem plain_of_seen (hword : decode word = word) (h : segs[i]? = some word) : segs[i]? = (segs.map decode)[i]? := by
  rw [decoded_of_seen hword h, h]

theorem scopeFamily_eq_getD (segs : List (List UInt8)) : scopeFamily segs = (namedFamily segs).getD .realm := by
  by_cases hbelow : BelowAdmin segs
  · have hadmin : adminRealmScope segs = segs[3]?.bind fun segment =>
        if segment == ascii "realm" then some .realm else resourceFamily segment := by
      refine if_neg ?_
      simp [hbelow.1, hbelow.2]
    have hat : familyAt segs = 3 := if_pos hbelow
    rw [scopeFamily, hadmin, hbelow.2, Option.bind_some, namedFamily, hat]
    cases segs[3]? with
    | none => rfl
    | some segment =>
      rw [Option.bind_some, Option.bind_some]
      split_ifs with hrealm
      · rw [beq_iff_eq.mp hrealm]
        decide +kernel
      · cases resourceFamily segment <;> rfl
  · have hadmin : adminRealmScope segs = none := by
      refine if_pos ?_
      rw [BelowAdmin, not_and_or] at hbelow
      simpa [bne_iff_ne] using hbelow
    have hat : familyAt segs = 1 := if_neg hbelow
    rw [scopeFamily, hadmin, namedFamily, hat]

theorem BelowAdmin.decode (h : BelowAdmin segs) : BelowAdmin (segs.map decode) :=
  ⟨decoded_of_seen decode_admin h.1, decoded_of_seen decode_realms h.2⟩

variable {family : ScopeFamily}

theorem named_decode (h : segs[i]?.bind resourceFamily = some family) :
    segs[i]? = (segs.map decode)[i]? ∧ (segs.map decode)[i]?.bind resourceFamily = some family := by
  obtain ⟨segment, hsegment, hfamily⟩ := Option.bind_eq_some_iff.mp h
  have hplain := plain_of_seen (resourceFamily_spec hfamily).1 hsegment
  exact ⟨hplain, by rw [← hplain, h]⟩

theorem not_belowAdmin (h : segs[1]?.bind resourceFamily = some family) : ¬ BelowAdmin segs := by
  rintro ⟨-, hrealms⟩
  rw [hrealms, Option.bind_some] at h
  cases h

section

variable (h : namedFamily segs = some family)
include h

theorem namedAt_below (hbelow : BelowAdmin segs) : namedAt segs = [0, 1, 3] := by
  rw [namedAt, h, if_neg (by simp), if_pos hbelow]

theorem namedAt_other (hbelow : ¬ BelowAdmin segs) : namedAt segs = [1] := by
  rw [namedAt, h, if_neg (by simp), if_neg hbelow]

theorem plain_of_namedFamily : namedFamily (segs.map decode) = some family ∧ NamedPlainly segs := by
  by_cases hbelow : BelowAdmin segs
  · rw [namedFamily, familyAt, if_pos hbelow] at h
    obtain ⟨p3, h3⟩ := named_decode h
    have hfamily : namedFamily (segs.map decode) = some family := by
      rw [namedFamily, familyAt, if_pos hbelow.decode, h3]
    refine ⟨hfamily, ?_⟩
    rw [NamedPlainly, namedAt_below hfamily hbelow.decode]
    simp only [forall_mem_cons, not_mem_nil, false_imp_iff, implies_true, and_true]
    exact ⟨plain_of_seen decode_admin hbelow.1, plain_of_seen decode_realms hbelow.2, p3⟩
  · rw [namedFamily, familyAt, if_neg hbelow] at h
    obtain ⟨p1, h1⟩ := named_decode h
    have hfamily : namedFamily (segs.map decode) = some family := by
      rw [namedFamily, familyAt, if_neg (not_belowAdmin h1), h1]
    refine ⟨hfamily, ?_⟩
    rw [NamedPlainly, namedAt_other hfamily (not_belowAdmin h1), forall_mem_singleton]
    exact p1

end

theorem namedFamily_of_plain (h : namedFamily (segs.map decode) = some family)
    (hplain : NamedPlainly segs) : namedFamily segs = some family := by
  by_cases hbelow : BelowAdmin (segs.map decode)
  · rw [NamedPlainly, namedAt_below h hbelow] at hplain
    simp only [forall_mem_cons, not_mem_nil, false_imp_iff, implies_true, and_true] at hplain
    obtain ⟨p0, p1, p3⟩ := hplain
    have hseen : BelowAdmin segs := ⟨p0.trans hbelow.1, p1.trans hbelow.2⟩
    rw [namedFamily, familyAt, if_pos hbelow] at h
    rw [namedFamily, familyAt, if_pos hseen, p3, h]
  · rw [NamedPlainly, namedAt_other h hbelow, forall_mem_singleton] at hplain
    rw [namedFamily, familyAt, if_neg hbelow, ← hplain] at h
    rw [namedFamily, familyAt, if_neg (not_belowAdmin h), h]

/-- **What the gateway sees of a resource**: its family, if the words that name it are written plainly, and
otherwise the realm. -/
theorem scopeFamily_eq (segs : List (List UInt8)) :
    scopeFamily segs = if NamedPlainly segs then scopeFamily (segs.map decode) else .realm := by
  rw [scopeFamily_eq_getD, scopeFamily_eq_getD]
  cases hseen : namedFamily segs with
  | some family =>
    obtain ⟨hthere, hplain⟩ := plain_of_namedFamily hseen
    rw [if_pos hplain, hthere]
  | none =>
    split_ifs with hplain
    · cases hthere : namedFamily (segs.map decode) with
      | none => rfl
      | some family =>
        rw [namedFamily_of_plain hthere hplain] at hseen
        cases hseen
    · rfl

theorem namedPlainly_of_realm (h : scopeFamily (segs.map decode) = .realm) : NamedPlainly segs := by
  have hnone : namedFamily (segs.map decode) = none := by
    cases hnamed : namedFamily (segs.map decode) with
    | none => rfl
    | some family =>
      obtain ⟨segment, -, hfamily⟩ := Option.bind_eq_some_iff.mp hnamed
      rw [scopeFamily_eq_getD, hnamed] at h
      exact absurd h (resourceFamily_spec hfamily).2
  intro i hi
  rw [namedAt, hnone] at hi
  cases hi

end Families

/-! ### Scopes -/

theorem familyScope_inj (isRead : Bool) {secret secret' : Bool} {family family' : ScopeFamily} :
    familyScope isRead secret family = familyScope isRead secret' family' ↔
      family = family' ∧ (family = .clients → secret = secret') := by
  cases isRead <;> cases secret <;> cases secret' <;> cases family <;> cases family' <;> decide

theorem segments_decode {path : List UInt8} (h : ∀ c ∈ guarded, ¬Escaped c path) :
    segments slash (decode path) = (segments slash path).map decode := by
  have hpieces := pieces_decode h
  unfold pieces at hpieces
  rw [segments, hpieces, filter_map]
  congr 1
  refine filter_congr ?_
  intro piece _
  cases piece with
  | nil => rfl
  | cons b rest =>
    cases hdecode : decode (b :: rest) with
    | nil => cases decode_eq_nil hdecode
    | cons c decoded => simp [hdecode]

theorem segments_of_accepted {path : Text} (h : pathAccepted path = true) :
    segments slash (collapse slash false (decode (utf8 path))) = (pathSegments (utf8 path)).map decode := by
  have hplain : containsEncodedDelimiter (utf8 path) = false := by
    simp only [pathAccepted, kernelGatewayPathDenied, Bool.not_or, Bool.and_eq_true, Bool.not_eq_true'] at h
    exact h.1.1.2
  rw [segments_collapse_false, segments_decode (not_escaped hplain), pathSegments, segments_trimBy]

/-- **When two spellings of a path ask for the same scopes.** -/
theorem requiredScopes_spelling_iff (method p q : Text) (hp : pathAccepted p = true) (hq : pathAccepted q = true)
    (hsame : SamePath p q) : requiredScopes method p = requiredScopes method q ↔ SpelledAlike p q := by
  have hresource : (pathSegments (utf8 p)).map decode = (pathSegments (utf8 q)).map decode := by
    rw [← segments_of_accepted hp, ← segments_of_accepted hq, hsame]
  have hscopes : requiredScopes method p = requiredScopes method q ↔
      scopeFamily (pathSegments (utf8 p)) = scopeFamily (pathSegments (utf8 q)) ∧
        (scopeFamily (pathSegments (utf8 p)) = .clients →
          isClientSecretPath (pathSegments (utf8 p)) = isClientSecretPath (pathSegments (utf8 q))) := by
    rw [← familyScope_inj (isReadMethod method), requiredScopes, requiredScopes, List.cons.injEq, String.toList_inj]
    simp
  -- nothing has to be written plainly if the resource has no name
  have hname : ¬ NamedPlainly (pathSegments (utf8 p)) → scopeFamily ((pathSegments (utf8 q)).map decode) ≠ .realm :=
    fun hnot hrealm => hnot (namedPlainly_of_realm (hresource ▸ hrealm))
  have hname' : ¬ NamedPlainly (pathSegments (utf8 q)) → scopeFamily ((pathSegments (utf8 q)).map decode) ≠ .realm :=
    fun hnot hrealm => hnot (namedPlainly_of_realm hrealm)
  rw [hscopes, SpelledAlike, scopeFamily_eq (pathSegments (utf8 p)), scopeFamily_eq (pathSegments (utf8 q)), hresource]
  by_cases hplain : NamedPlainly (pathSegments (utf8 p)) <;>
    by_cases hplain' : NamedPlainly (pathSegments (utf8 q))
  · simp [hplain, hplain', isClientSecretPath]
  · simp [hplain, hplain', hname' hplain']
  · simp [hplain, (hname hplain).symm]
  · simp [hplain, hplain']

/-- An escape in the name of the realm and a repeated slash make no difference. -/
theorem requiredScopes_spelling_realmName : requiredScopes "GET".toList "/admin/realms/d%65mo/users".toList =
      requiredScopes "GET".toList "/admin//realms/demo/users".toList :=
  (requiredScopes_spelling_iff "GET".toList "/admin/realms/d%65mo/users".toList "/admin//realms/demo/users".toList
    (by decide +kernel) (by decide +kernel) (by decide +kernel)).mpr (by decide +kernel)

/-- With an escaped letter the users of a realm are read with the scope of the realm, and a client secret with the
scope of the clients. -/
theorem requiredScopes_escapedLetter : pathAccepted "/admin/realms/demo/users".toList = true ∧
      pathAccepted "/admin/realms/demo/%75sers".toList = true ∧
      SamePath "/admin/realms/demo/users".toList "/admin/realms/demo/%75sers".toList ∧
      requiredScopes "GET".toList "/admin/realms/demo/users".toList = ["keycloak-admin:users:read".toList] ∧
      requiredScopes "GET".toList "/admin/realms/demo/%75sers".toList = ["keycloak-admin:realm:read".toList] ∧
      gatewayDecision .fallback (⟨"GET".toList, "/admin/realms/demo/%75sers".toList,
        ["keycloak-admin:realm:read".toList], [], .default⟩ : GatewayDecisionInput Unit) =
          Decision.allowed.withRequiredScopes ["keycloak-admin:realm:read".toList] ∧
      SamePath "/admin/realms/demo/clients/7/client-secret".toList
        "/admin/realms/demo/clients/7/client%2Dsecret".toList ∧
      requiredScopes "GET".toList "/admin/realms/demo/clients/7/client-secret".toList =
        ["keycloak-admin:clients:secrets".toList] ∧
      gatewayDecision .fallback (⟨"GET".toList, "/admin/realms/demo/clients/7/client%2Dsecret".toList,
        ["keycloak-admin:clients:read".toList], [], .default⟩ : GatewayDecisionInput Unit) =
          Decision.allowed.withRequiredScopes ["keycloak-admin:clients:read".toList] := by
  decide +kernel

end McpToolkit.Policy.KernelAdapters

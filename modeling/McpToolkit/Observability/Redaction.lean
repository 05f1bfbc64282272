import McpToolkit.Lib.Json

/-!
# McpToolkit.Observability.Redaction — values under sensitive keys

`redact_json_keys` walks a JSON value and overwrites what it finds under a sensitive key.  The key of a member is put
in lower case and compared with the listed keys as they are.

What is asked of it is a relation between two values: `SameOutside keys v v'` says that they differ only under keys
that are listed in some case.  Values that are so related are to become equal, and a value is to be so related to what
becomes of it.
-/

namespace McpToolkit.Observability

open Lib
open Lib.Json (Value)

variable {φ : Type}

/-- `str::to_ascii_lowercase`. -/
def toAsciiLowercase (text : List UInt8) : List UInt8 := text.map Text.toAsciiLowercase

theorem toAsciiLowercase_idem (text : List UInt8) :
    toAsciiLowercase (toAsciiLowercase text) = toAsciiLowercase text := by
  have hbyte : ∀ b : UInt8, Text.toAsciiLowercase (Text.toAsciiLowercase b) = Text.toAsciiLowercase b :=
    Text.forall_byte (by decide +kernel)
  unfold toAsciiLowercase
  rw [List.map_map]
  exact List.map_congr_left fun b _ => hbyte b

def shouldRedactKey (key : List UInt8) (keys : List (List UInt8)) : Bool :=
  let key := toAsciiLowercase key
  keys.any fun candidate => candidate == key

variable {key : List UInt8}

theorem shouldRedactKey_iff {keys : List (List UInt8)} :
    shouldRedactKey key keys = true ↔ toAsciiLowercase key ∈ keys := by
  simp [shouldRedactKey]

section Redact

variable (keys : List (List UInt8)) (replacement : List UInt8)

mutual

def redactJsonKeys : Value φ → Value φ
  | .object members => .object (redactMembers members)
  | .array items => .array (redactItems items)
  | .null => .null
  | .bool b => .bool b
  | .number n => .number n
  | .string s => .string s

/-- The loop over the entries of an object. -/
def redactMembers : List (List UInt8 × Value φ) → List (List UInt8 × Value φ)
  | [] => []
  | (key, entry) :: members =>
    (key, if shouldRedactKey key keys then .string replacement else redactJsonKeys entry) :: redactMembers members

/-- The loop over the items of an array. -/
def redactItems : List (Value φ) → List (Value φ)
  | [] => []
  | entry :: items => redactJsonKeys entry :: redactItems items

end

end Redact

/-! ### What the keys stand for -/

/-- The key is listed, in some case. -/
def Sensitive (keys : List (List UInt8)) (key : List UInt8) : Prop :=
  ∃ listed ∈ keys, toAsciiLowercase listed = toAsciiLowercase key

mutual

/-- The values differ only in what stands under sensitive keys. -/
inductive SameOutside (keys : List (List UInt8)) : Value φ → Value φ → Prop
  | refl (v : Value φ) : SameOutside keys v v
  | array {items items' : List (Value φ)} : SameItems keys items items' → SameOutside keys (.array items) (.array items')
  | object {members members' : List (List UInt8 × Value φ)} :
      SameMembers keys members members' → SameOutside keys (.object members) (.object members')

inductive SameItems (keys : List (List UInt8)) : List (Value φ) → List (Value φ) → Prop
  | nil : SameItems keys [] []
  | cons {v v' : Value φ} {items items' : List (Value φ)} :
      SameOutside keys v v' → SameItems keys items items' → SameItems keys (v :: items) (v' :: items')

inductive SameMembers (keys : List (List UInt8)) :
    List (List UInt8 × Value φ) → List (List UInt8 × Value φ) → Prop
  | nil : SameMembers keys [] []
  | sensitive {key : List UInt8} {v v' : Value φ} {members members' : List (List UInt8 × Value φ)} :
      Sensitive keys key → SameMembers keys members members' →
        SameMembers keys ((key, v) :: members) ((key, v') :: members')
  | plain {key : List UInt8} {v v' : Value φ} {members members' : List (List UInt8 × Value φ)} :
      SameOutside keys v v' → SameMembers keys members members' →
        SameMembers keys ((key, v) :: members) ((key, v') :: members')

end

/-- With each listed key its lower-case spelling is listed. -/
def LowerListed (keys : List (List UInt8)) : Prop := ∀ key ∈ keys, toAsciiLowercase key ∈ keys

variable {keys : List (List UInt8)} {replacement : List UInt8}

theorem sensitive_of_shouldRedactKey (h : shouldRedactKey key keys = true) : Sensitive keys key :=
  ⟨toAsciiLowercase key, shouldRedactKey_iff.mp h, toAsciiLowercase_idem key⟩

theorem shouldRedactKey_of_sensitive (hkeys : LowerListed keys) (h : Sensitive keys key) :
    shouldRedactKey key keys = true := by
  obtain ⟨listed, hlisted, heq⟩ := h
  rw [shouldRedactKey_iff, ← heq]
  exact hkeys listed hlisted

/-! ### Two values -/

-- By recursion on the derivation: under a sensitive key both sides hold the replacement.
mutual

theorem redactJsonKeys_eq (hkeys : LowerListed keys) {v v' : Value φ} :
    SameOutside keys v v' → redactJsonKeys keys replacement v = redactJsonKeys keys replacement v'
  | .refl _ => rfl
  | .array h => by
    rw [redactJsonKeys, redactJsonKeys, redactItems_eq hkeys h]
  | .object h => by
    rw [redactJsonKeys, redactJsonKeys, redactMembers_eq hkeys h]

theorem redactItems_eq (hkeys : LowerListed keys) {items items' : List (Value φ)} :
    SameItems keys items items' → redactItems keys replacement items = redactItems keys replacement items'
  | .nil => rfl
  | .cons hv h => by
    rw [redactItems, redactItems, redactJsonKeys_eq hkeys hv, redactItems_eq hkeys h]

theorem redactMembers_eq (hkeys : LowerListed keys) {members members' : List (List UInt8 × Value φ)} :
    SameMembers keys members members' → redactMembers keys replacement members = redactMembers keys replacement members'
  | .nil => rfl
  | .sensitive hkey h => by
    have hredact := shouldRedactKey_of_sensitive hkeys hkey
    rw [redactMembers, redactMembers, if_pos hredact, if_pos hredact, redactMembers_eq hkeys h]
  | .plain hv h => by
    rw [redactMembers, redactMembers, redactJsonKeys_eq hkeys hv, redactMembers_eq hkeys h]

end

/-! ### One value -/

mutual

theorem sameOutside_redactJsonKeys : ∀ v : Value φ, SameOutside keys v (redactJsonKeys keys replacement v)
  | .object members => .object (sameMembers_redactMembers members)
  | .array items => .array (sameItems_redactItems items)
  | .null => .refl _
  | .bool _ => .refl _
  | .number _ => .refl _
  | .string _ => .refl _

theorem sameMembers_redactMembers :
    ∀ members : List (List UInt8 × Value φ), SameMembers keys members (redactMembers keys replacement members)
  | [] => .nil
  | (key, entry) :: members => by
    rw [redactMembers]
    by_cases hkey : shouldRedactKey key keys = true
    · exact .sensitive (sensitive_of_shouldRedactKey hkey) (sameMembers_redactMembers members)
    · rw [if_neg hkey]
      exact .plain (sameOutside_redactJsonKeys entry) (sameMembers_redactMembers members)

theorem sameItems_redactItems :
    ∀ items : List (Value φ), SameItems keys items (redactItems keys replacement items)
  | [] => .nil
  | entry :: items => .cons (sameOutside_redactJsonKeys entry) (sameItems_redactItems items)

end

mutual

theorem redactJsonKeys_idem : ∀ v : Value φ,
    redactJsonKeys keys replacement (redactJsonKeys keys replacement v) = redactJsonKeys keys replacement v
  | .object members => by
    rw [redactJsonKeys, redactJsonKeys, redactMembers_idem members]
  | .array items => by
    rw [redactJsonKeys, redactJsonKeys, redactItems_idem items]
  | .null => rfl
  | .bool _ => rfl
  | .number _ => rfl
  | .string _ => rfl

theorem redactMembers_idem : ∀ members : List (List UInt8 × Value φ),
    redactMembers keys replacement (redactMembers keys replacement members) = redactMembers keys replacement members
  | [] => rfl
  | (key, entry) :: members => by
    rw [redactMembers, redactMembers, redactMembers_idem members]
    by_cases hkey : shouldRedactKey key keys = true
    · rw [if_pos hkey, if_pos hkey]
    · rw [if_neg hkey, if_neg hkey, redactJsonKeys_idem entry]

theorem redactItems_idem : ∀ items : List (Value φ),
    redactItems keys replacement (redactItems keys replacement items) = redactItems keys replacement items
  | [] => rfl
  | entry :: items => by
    rw [redactItems, redactItems, redactJsonKeys_idem entry, redactItems_idem items]

end

/-! ### A listed key in another case -/

theorem redactJsonKeys_bool (hkey : toAsciiLowercase key ∉ keys) (b : Bool) :
    redactJsonKeys keys replacement (.object [(key, .bool b)] : Value φ) = .object [(key, .bool b)] := by
  have hredact : ¬ shouldRedactKey key keys = true := fun h => hkey (shouldRedactKey_iff.mp h)
  rw [redactJsonKeys, redactMembers, if_neg hredact, redactJsonKeys, redactMembers]

theorem redactJsonKeys_bool_ne (hkey : toAsciiLowercase key ∉ keys) :
    redactJsonKeys keys replacement (.object [(key, .bool true)] : Value φ) ≠
      redactJsonKeys keys replacement (.object [(key, .bool false)]) := by
  rw [redactJsonKeys_bool hkey, redactJsonKeys_bool hkey]
  intro heq
  injection heq with hmembers
  injection hmembers with hmember
  injection hmember with _ hvalue
  injection hvalue with hb
  exact Bool.noConfusion hb

theorem sameOutside_listed (hkey : key ∈ keys) (v v' : Value φ) :
    SameOutside keys (.object [(key, v)]) (.object [(key, v')]) :=
  .object (.sensitive ⟨key, hkey, rfl⟩ .nil)

/-- **Redaction is non-interfering exactly for lists that have the lower-case spelling of each of their keys.**  A key
listed in capitals is compared with keys in lower case, so it redacts nothing. -/
theorem redactJsonKeys_nonInterfering_iff (keys : List (List UInt8)) (replacement : List UInt8) :
    ((∀ v v' : Value φ, SameOutside keys v v' →
        redactJsonKeys keys replacement v = redactJsonKeys keys replacement v') ∧
      (∀ v : Value φ, SameOutside keys v (redactJsonKeys keys replacement v)) ∧
      ∀ v : Value φ, redactJsonKeys keys replacement (redactJsonKeys keys replacement v) =
        redactJsonKeys keys replacement v) ↔ LowerListed keys := by
  constructor
  · rintro ⟨hsame, -, -⟩ key hkey
    by_contra hlower
    have heq := hsame _ _ (sameOutside_listed hkey (.bool true) (.bool false))
    exact redactJsonKeys_bool_ne hlower heq
  · intro hkeys
    exact ⟨fun _ _ => redactJsonKeys_eq hkeys, sameOutside_redactJsonKeys, redactJsonKeys_idem⟩

/-- `{"Token": true}` and `{"Token": false}` with the listed key `Token`. -/
theorem redactJsonKeys_interferes_capitalKey :
    SameOutside [Text.ascii "Token"] (.object [(Text.ascii "Token", .bool true)] : Value Empty)
      (.object [(Text.ascii "Token", .bool false)]) ∧ redactJsonKeys [Text.ascii "Token"] (Text.ascii "<redacted>")
        (.object [(Text.ascii "Token", .bool true)] : Value Empty) ≠
      redactJsonKeys [Text.ascii "Token"] (Text.ascii "<redacted>") (.object [(Text.ascii "Token", .bool false)]) := by
  refine ⟨sameOutside_listed List.mem_cons_self _ _, fun heq => ?_⟩
  have hlower : toAsciiLowercase (Text.ascii "Token") ∉ [Text.ascii "Token"] := by decide
  exact redactJsonKeys_bool_ne hlower heq

end McpToolkit.Observability

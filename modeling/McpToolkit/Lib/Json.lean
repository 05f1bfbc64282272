import McpToolkit.Lib.Decimal
import McpToolkit.Lib.Text

/-!
# McpToolkit.Lib.Json — JSON values and their compact text

A string is the list of its UTF-8 bytes, and an object the list of its members in the order in which
they are stored.  `write` is the compact serialiser: no blanks, strings with the short escapes and
`\u00xx` for the other control characters, integers in decimal.  How floating-point numbers are
written is a parameter (`FloatFormat`).

`Value.Reordered` relates values that differ in the order of the members of objects, at any depth.
-/

namespace McpToolkit.Lib.Json

open List
open Text (ascii forall_byte)
open Decimal (decimal)

/-- Integers are kept apart by their sign: `negInt n` is `-(n + 1)`. -/
inductive Number (φ : Type) where
  | posInt (n : ℕ)
  | negInt (n : ℕ)
  | float (x : φ)
  deriving DecidableEq

inductive Value (φ : Type) where
  | null
  | bool (b : Bool)
  | number (n : Number φ)
  | string (s : List UInt8)
  | array (items : List (Value φ))
  | object (members : List (List UInt8 × Value φ))

/-! ### Bytes -/

def quote : UInt8 := 34
def comma : UInt8 := 44
def minus : UInt8 := 45
def colon : UInt8 := 58
def openBracket : UInt8 := 91
def backslash : UInt8 := 92
def closeBracket : UInt8 := 93
def openBrace : UInt8 := 123
def closeBrace : UInt8 := 125

def digitByte (d : ℕ) : UInt8 := UInt8.ofNat (48 + d)

/-- The bytes of an integer. -/
def isIntegerByte (b : UInt8) : Bool := (48 ≤ b && b ≤ 57) || b == minus

/-- The bytes of a number: those of an integer, the point, the plus sign and the exponent mark. -/
def isNumberByte (b : UInt8) : Bool := isIntegerByte b || b == 43 || b == 46 || b == 69 || b == 101

/-- How floating-point numbers are written: differently for different numbers, as JSON numbers, and
with a point or an exponent. -/
structure FloatFormat (φ : Type) where
  write : φ → List UInt8
  injective : Function.Injective write
  numeric : ∀ x, ∀ b ∈ write x, isNumberByte b = true
  fractional : ∀ x, ∃ b ∈ write x, isIntegerByte b = false

/-! ### The serialiser -/

def hexDigit (n : UInt8) : UInt8 := if n < 10 then 48 + n else 87 + n

/-- What stands for a byte inside a string. -/
def escape (b : UInt8) : List UInt8 :=
  if b = quote ∨ b = backslash then [backslash, b]
  else if b = 8 then [backslash, 98]
  else if b = 9 then [backslash, 116]
  else if b = 10 then [backslash, 110]
  else if b = 12 then [backslash, 102]
  else if b = 13 then [backslash, 114]
  else if b < 32 then [backslash, 117, 48, 48, hexDigit (b / 16), hexDigit (b % 16)]
  else [b]

def writeString (s : List UInt8) : List UInt8 := quote :: (s.flatMap escape ++ [quote])

section Write

variable {φ : Type} (fmt : FloatFormat φ)

def writeNumber : Number φ → List UInt8
  | .posInt n => decimal digitByte n
  | .negInt n => minus :: decimal digitByte (n + 1)
  | .float x => fmt.write x

/-- The comma in front of every item but the first. -/
def separator (first : Bool) : List UInt8 := if first then [] else [comma]

mutual

def write : Value φ → List UInt8
  | .null => ascii "null"
  | .bool true => ascii "true"
  | .bool false => ascii "false"
  | .number n => writeNumber fmt n
  | .string s => writeString s
  | .array items => openBracket :: writeItems true items
  | .object members => openBrace :: writeMembers true members

def writeItems (first : Bool) : List (Value φ) → List UInt8
  | [] => [closeBracket]
  | v :: items => separator first ++ write v ++ writeItems false items

def writeMembers (first : Bool) : List (List UInt8 × Value φ) → List UInt8
  | [] => [closeBrace]
  | (k, v) :: members =>
    separator first ++ writeString k ++ colon :: write v ++ writeMembers false members

end

end Write

/-! ### Strings are read back -/

/-- The length of the escape at the front of a text; its first two bytes tell. -/
def escapeLength (text : List UInt8) : ℕ :=
  if text.head? = some backslash then if text[1]? = some 117 then 6 else 2 else 1

theorem escapeLength_append (b : UInt8) (rest : List UInt8) : escapeLength (escape b ++ rest) = (escape b).length := by
  unfold escape
  split_ifs with h <;> simp_all [escapeLength, backslash, quote]
  rcases h with rfl | rfl <;> decide

/-- A left inverse of `escape`. -/
def unescape : List UInt8 → UInt8
  | [_, c] => if c = 98 then 8 else if c = 116 then 9 else if c = 110 then 10
      else if c = 102 then 12 else if c = 114 then 13 else c
  | [_, _, _, _, h, l] => (h - 48) * 16 + (if l < 58 then l - 48 else l - 87)
  | [b] => b
  | _ => 0

theorem unescape_escape : ∀ b : UInt8, unescape (escape b) = b := forall_byte (by decide +kernel)

theorem escape_append_inj {b b' : UInt8} {r r' : List UInt8}
    (h : escape b ++ r = escape b' ++ r') : b = b' ∧ r = r' := by
  have hlen : (escape b).length = (escape b').length := by
    rw [← escapeLength_append b r, h, escapeLength_append]
  obtain ⟨hb, hr⟩ := append_inj h hlen
  exact ⟨by rw [← unescape_escape b, hb, unescape_escape], hr⟩

theorem escape_head : ∀ b : UInt8, ∃ c t, escape b = c :: t ∧ c ≠ quote := by
  intro b
  unfold escape
  split_ifs with h
  all_goals first
    | exact ⟨_, _, rfl, by decide⟩
    | exact ⟨_, _, rfl, fun hb => h (.inl hb)⟩

theorem flatMap_escape_append_inj : ∀ {s s' r r' : List UInt8},
    s.flatMap escape ++ quote :: r = s'.flatMap escape ++ quote :: r' → s = s' ∧ r = r'
  | [], [], _, _, h => ⟨rfl, (List.cons.inj h).2⟩
  | [], b' :: s', r, r', h => by
    obtain ⟨c, t, hc, hne⟩ := escape_head b'
    rw [flatMap_cons, hc] at h
    exact absurd (List.cons.inj h).1.symm hne
  | b :: s, [], r, r', h => by
    obtain ⟨c, t, hc, hne⟩ := escape_head b
    rw [flatMap_cons, hc] at h
    exact absurd (List.cons.inj h).1 hne
  | b :: s, b' :: s', r, r', h => by
    rw [flatMap_cons, flatMap_cons, append_assoc, append_assoc] at h
    obtain ⟨rfl, hrest⟩ := escape_append_inj h
    obtain ⟨rfl, hr⟩ := flatMap_escape_append_inj hrest
    exact ⟨rfl, hr⟩

theorem writeString_append_inj {s s' r r' : List UInt8}
    (h : writeString s ++ r = writeString s' ++ r') : s = s' ∧ r = r' := by
  rw [writeString, writeString, cons_append, cons_append, append_assoc, append_assoc] at h
  exact flatMap_escape_append_inj (List.cons.inj h).2

/-! ### Numbers are read back -/

section Read

variable {φ : Type} {fmt : FloatFormat φ}

variable {r : List UInt8} {n : ℕ} {b : UInt8} {s : List UInt8}

theorem isIntegerByte_of_mem_decimal (h : b ∈ decimal digitByte n) : isIntegerByte b = true ∧ b ≠ minus := by
  obtain ⟨d, hd, rfl⟩ := Decimal.mem_decimal h
  have hall : ∀ d < 10, isIntegerByte (digitByte d) = true ∧ digitByte d ≠ minus := by decide
  exact hall d hd

theorem decimal_digitByte_inj {n' : ℕ} (h : decimal digitByte n = decimal digitByte n') : n = n' :=
  Decimal.decimal_injective (fun b => b.toNat - 48) (by decide) h

theorem decimal_ne_minus {t : List UInt8} : decimal digitByte n ≠ minus :: t := by
  intro h
  exact (isIntegerByte_of_mem_decimal (by rw [h]; exact mem_cons_self)).2 rfl

theorem isIntegerByte_of_mem_negInt (h : b ∈ minus :: decimal digitByte n) : isIntegerByte b = true := by
  rcases mem_cons.mp h with rfl | h
  · decide
  · exact (isIntegerByte_of_mem_decimal h).1

theorem float_ne {x : φ} {l : List UInt8} (hl : ∀ b ∈ l, isIntegerByte b = true) : fmt.write x ≠ l := by
  rintro rfl
  obtain ⟨b, hb, hfrac⟩ := fmt.fractional x
  rw [hl b hb] at hfrac
  cases hfrac

theorem writeNumber_injective : Function.Injective (writeNumber fmt) := by
  intro n n' h
  cases n with
  | posInt n =>
    cases n' with
    | posInt n' => rw [decimal_digitByte_inj h]
    | negInt n' => exact absurd h decimal_ne_minus
    | float x => exact absurd h.symm (float_ne fun b hb => (isIntegerByte_of_mem_decimal hb).1)
  | negInt n =>
    cases n' with
    | posInt n' => exact absurd h.symm decimal_ne_minus
    | negInt n' =>
      have hn := decimal_digitByte_inj (List.cons.inj h).2
      rw [Nat.succ.inj hn]
    | float x => exact absurd h.symm (float_ne fun b hb => isIntegerByte_of_mem_negInt hb)
  | float x =>
    cases n' with
    | posInt n' => exact absurd h (float_ne fun b hb => (isIntegerByte_of_mem_decimal hb).1)
    | negInt n' => exact absurd h (float_ne fun b hb => isIntegerByte_of_mem_negInt hb)
    | float x' => rw [fmt.injective h]

theorem isNumberByte_of_mem_writeNumber (fmt : FloatFormat φ) {n : Number φ}
    (h : b ∈ writeNumber fmt n) : isNumberByte b = true := by
  cases n with
  | posInt n => simp [isNumberByte, (isIntegerByte_of_mem_decimal h).1]
  | negInt n => simp [isNumberByte, isIntegerByte_of_mem_negInt h]
  | float x => exact fmt.numeric x b h

theorem writeNumber_ne_nil (fmt : FloatFormat φ) (n : Number φ) : writeNumber fmt n ≠ [] := by
  cases n with
  | posInt n => exact Decimal.decimal_ne_nil n
  | negInt n => exact cons_ne_nil _ _
  | float x =>
    obtain ⟨b, hb, -⟩ := fmt.fractional x
    exact ne_nil_of_mem hb

/-- The text behind a value does not continue a number. -/
def Stops (rest : List UInt8) : Prop := rest.head?.any isNumberByte = false

theorem takeWhile_of_stops {l : List UInt8} (hl : ∀ b ∈ l, isNumberByte b = true)
    (hr : Stops r) : (l ++ r).takeWhile isNumberByte = l := by
  rw [takeWhile_append_of_pos hl]
  cases r with
  | nil => rw [takeWhile_nil, append_nil]
  | cons c r => rw [takeWhile_cons_of_neg (Bool.not_eq_true _ ▸ hr), append_nil]

theorem writeNumber_append_inj {n n' : Number φ} {r' : List UInt8} (hr : Stops r)
    (hr' : Stops r') (h : writeNumber fmt n ++ r = writeNumber fmt n' ++ r') : n = n' ∧ r = r' := by
  have htext : writeNumber fmt n = writeNumber fmt n' := by
    rw [← takeWhile_of_stops (fun b hb => isNumberByte_of_mem_writeNumber fmt hb) hr, h,
      takeWhile_of_stops (fun b hb => isNumberByte_of_mem_writeNumber fmt hb) hr']
  rw [htext, append_cancel_left_eq] at h
  exact ⟨writeNumber_injective htext, h⟩

/-! ### Values are read back -/

inductive Kind where
  | null
  | bool (b : Bool)
  | number
  | string
  | array
  | object
  deriving DecidableEq

def Value.kind : Value φ → Kind
  | .null => .null
  | .bool b => .bool b
  | .number _ => .number
  | .string _ => .string
  | .array _ => .array
  | .object _ => .object

/-- The kind of a value that is written from this byte on. -/
def leadKind (b : UInt8) : Kind :=
  if b = 110 then .null else if b = 116 then .bool true else if b = 102 then .bool false
  else if b = quote then .string else if b = openBracket then .array
  else if b = openBrace then .object else .number

theorem leadKind_of_isNumberByte : ∀ b : UInt8, isNumberByte b = true →
    leadKind b = .number ∧ b ≠ closeBracket := forall_byte (by decide +kernel)

theorem write_lead (fmt : FloatFormat φ) (v : Value φ) :
    ∃ b t, write fmt v = b :: t ∧ leadKind b = v.kind ∧ b ≠ closeBracket := by
  cases v with
  | null => exact ⟨110, _, rfl, rfl, by decide⟩
  | bool b =>
    cases b with
    | true => exact ⟨116, _, rfl, rfl, by decide⟩
    | false => exact ⟨102, _, rfl, rfl, by decide⟩
  | number n =>
    obtain ⟨b, t, hb⟩ := exists_cons_of_ne_nil (writeNumber_ne_nil fmt n)
    have hnum : isNumberByte b = true :=
      isNumberByte_of_mem_writeNumber fmt (by rw [hb]; exact mem_cons_self)
    exact ⟨b, t, hb, leadKind_of_isNumberByte b hnum⟩
  | string s => exact ⟨quote, _, rfl, rfl, by decide⟩
  | array items => exact ⟨openBracket, _, rfl, rfl, by decide⟩
  | object members => exact ⟨openBrace, _, rfl, rfl, by decide⟩

theorem kind_eq_of_write {v w : Value φ} (h : write fmt v ++ r = write fmt w ++ s) : v.kind = w.kind := by
  obtain ⟨b, t, hb, hkind, -⟩ := write_lead fmt v
  obtain ⟨c, u, hc, hkind', -⟩ := write_lead fmt w
  rw [hb, hc] at h
  rw [← hkind, ← hkind', (List.cons.inj h).1]

theorem stops_writeItems (items : List (Value φ)) (r : List UInt8) : Stops (writeItems fmt false items ++ r) := by
  cases items <;> (simp only [writeItems]; rfl)

theorem stops_writeMembers (members : List (List UInt8 × Value φ)) (r : List UInt8) :
    Stops (writeMembers fmt false members ++ r) := by
  cases members <;> (simp only [writeMembers]; rfl)

theorem writeItems_ne {first : Bool} {v : Value φ} {items : List (Value φ)} :
    closeBracket :: r ≠ writeItems fmt first (v :: items) ++ s := by
  intro h
  obtain ⟨b, t, hb, -, hne⟩ := write_lead fmt v
  rw [writeItems, hb] at h
  cases first with
  | true => exact hne (List.cons.inj h).1.symm
  | false => exact absurd (List.cons.inj h).1 (by decide)

theorem writeMembers_ne {first : Bool} {m : List UInt8 × Value φ} {members : List (List UInt8 × Value φ)} :
    closeBrace :: r ≠ writeMembers fmt first (m :: members) ++ s := by
  intro h
  cases first with
  | true | false => exact absurd (List.cons.inj h).1 (by decide)

mutual

/-- **A text determines the value at its front**, when nothing behind it continues a number. -/
theorem write_append_inj : ∀ (v w : Value φ) {r s : List UInt8}, Stops r → Stops s →
    write fmt v ++ r = write fmt w ++ s → v = w ∧ r = s
  | .null, w, r, s, _, _, h => by
    have hkind := kind_eq_of_write h
    cases w <;> cases hkind
    exact ⟨rfl, append_cancel_left h⟩
  | .bool b, w, r, s, _, _, h => by
    have hkind := kind_eq_of_write h
    cases w <;> cases hkind
    exact ⟨rfl, append_cancel_left h⟩
  | .number n, w, r, s, hr, hs, h => by
    have hkind := kind_eq_of_write h
    cases w <;> cases hkind
    obtain ⟨rfl, hrest⟩ := writeNumber_append_inj hr hs h
    exact ⟨rfl, hrest⟩
  | .string t, w, r, s, _, _, h => by
    have hkind := kind_eq_of_write h
    cases w <;> cases hkind
    obtain ⟨rfl, hrest⟩ := writeString_append_inj h
    exact ⟨rfl, hrest⟩
  | .array items, w, r, s, _, _, h => by
    have hkind := kind_eq_of_write h
    cases w <;> cases hkind
    rw [write, write, cons_append, cons_append] at h
    obtain ⟨rfl, hrest⟩ := writeItems_append_inj items _ (List.cons.inj h).2
    exact ⟨rfl, hrest⟩
  | .object members, w, r, s, _, _, h => by
    have hkind := kind_eq_of_write h
    cases w <;> cases hkind
    rw [write, write, cons_append, cons_append] at h
    obtain ⟨rfl, hrest⟩ := writeMembers_append_inj members _ (List.cons.inj h).2
    exact ⟨rfl, hrest⟩

theorem writeItems_append_inj {first : Bool} : ∀ (items items' : List (Value φ))
    {r s : List UInt8}, writeItems fmt first items ++ r = writeItems fmt first items' ++ s →
      items = items' ∧ r = s
  | [], [], _, _, h => ⟨rfl, (List.cons.inj h).2⟩
  | [], _ :: _, _, _, h => absurd h writeItems_ne
  | _ :: _, [], _, _, h => absurd h.symm writeItems_ne
  | v :: items, w :: items', r, s, h => by
    rw [writeItems, writeItems, append_assoc, append_assoc, append_assoc, append_assoc, append_cancel_left_eq] at h
    obtain ⟨rfl, hrest⟩ :=
      write_append_inj v w (stops_writeItems items r) (stops_writeItems items' s) h
    obtain ⟨rfl, hrs⟩ := writeItems_append_inj items items' hrest
    exact ⟨rfl, hrs⟩

theorem writeMembers_append_inj {first : Bool} : ∀ (members members' : List (List UInt8 × Value φ))
    {r s : List UInt8}, writeMembers fmt first members ++ r = writeMembers fmt first members' ++ s →
      members = members' ∧ r = s
  | [], [], _, _, h => ⟨rfl, (List.cons.inj h).2⟩
  | [], _ :: _, _, _, h => absurd h writeMembers_ne
  | _ :: _, [], _, _, h => absurd h.symm writeMembers_ne
  | (k, v) :: members, (k', w) :: members', r, s, h => by
    simp only [writeMembers, append_assoc, cons_append, append_cancel_left_eq] at h
    obtain ⟨rfl, hvalue⟩ := writeString_append_inj h
    obtain ⟨rfl, hrest⟩ := write_append_inj v w (stops_writeMembers members r)
      (stops_writeMembers members' s) (List.cons.inj hvalue).2
    obtain ⟨rfl, hrs⟩ := writeMembers_append_inj members members' hrest
    exact ⟨rfl, hrs⟩

end

/-- **The serialiser is injective.** -/
theorem write_injective : Function.Injective (write fmt) := by
  intro v w h
  have hnil : Stops [] := rfl
  exact (write_append_inj v w hnil hnil (by rw [append_nil, append_nil, h])).1

end Read

/-! ### Distinct keys -/

section Reorder

variable {φ : Type}

mutual

/-- The keys of every object are distinct, at any depth. -/
def Value.Distinct : Value φ → Prop
  | .array items => DistinctItems items
  | .object members => (members.map Prod.fst).Nodup ∧ DistinctMembers members
  | .null | .bool _ | .number _ | .string _ => True

def DistinctItems : List (Value φ) → Prop
  | [] => True
  | v :: items => v.Distinct ∧ DistinctItems items

def DistinctMembers : List (List UInt8 × Value φ) → Prop
  | [] => True
  | (_, v) :: members => v.Distinct ∧ DistinctMembers members

end

/-- A value as a program holds it: the keys of an object are distinct. -/
structure Document (φ : Type) where
  value : Value φ
  distinct : value.Distinct

theorem distinctItems_iff {items : List (Value φ)} : DistinctItems items ↔ ∀ v ∈ items, v.Distinct := by
  induction items with
  | nil => simp [DistinctItems]
  | cons v items ih => rw [DistinctItems, ih, forall_mem_cons]

theorem distinctMembers_iff {members : List (List UInt8 × Value φ)} :
    DistinctMembers members ↔ ∀ e ∈ members, e.2.Distinct := by
  induction members with
  | nil => simp [DistinctMembers]
  | cons e members ih => rw [DistinctMembers, ih, forall_mem_cons]

/-! ### Reordered members -/

/-- The members of objects are reordered, at any depth. -/
inductive Value.Reordered : Value φ → Value φ → Prop
  | refl (v : Value φ) : Reordered v v
  | trans {u v w : Value φ} : Reordered u v → Reordered v w → Reordered u w
  | item {v w : Value φ} (before after : List (Value φ)) :
      Reordered v w → Reordered (.array (before ++ v :: after)) (.array (before ++ w :: after))
  | member {v w : Value φ} (k : List UInt8) (before after : List (List UInt8 × Value φ)) :
      Reordered v w →
        Reordered (.object (before ++ (k, v) :: after)) (.object (before ++ (k, w) :: after))
  | perm {members members' : List (List UInt8 × Value φ)} :
      members.Perm members' → Reordered (.object members) (.object members')

/-- Members with the same key and reordered values. -/
def MemberReordered (e e' : List UInt8 × Value φ) : Prop := e.1 = e'.1 ∧ e.2.Reordered e'.2

namespace Value

variable {v w : Value φ} {items items' : List (Value φ)}

theorem Reordered.symm (h : v.Reordered w) : w.Reordered v := by
  induction h with
  | refl v => exact .refl v
  | trans _ _ ih ih' => exact ih'.trans ih
  | item before after _ ih => exact .item before after ih
  | member k before after _ ih => exact .member k before after ih
  | perm hperm => exact .perm hperm.symm

theorem reordered_array_append (h : List.Forall₂ Reordered items items') : ∀ before : List (Value φ),
      Reordered (.array (before ++ items)) (.array (before ++ items')) := by
  induction h with
  | nil => exact fun before => .refl _
  | @cons v w items items' hvw _ ih =>
    intro before
    refine (Reordered.item before items hvw).trans ?_
    simpa only [append_assoc, singleton_append] using ih (before ++ [w])

theorem reordered_object_append {members members' : List (List UInt8 × Value φ)}
    (h : List.Forall₂ MemberReordered members members') : ∀ before : List (List UInt8 × Value φ),
      Reordered (.object (before ++ members)) (.object (before ++ members')) := by
  induction h with
  | nil => exact fun before => .refl _
  | @cons e e' members members' hee _ ih =>
    obtain ⟨k, v⟩ := e
    obtain ⟨k', w⟩ := e'
    obtain ⟨rfl, hvw⟩ : k = k' ∧ v.Reordered w := hee
    intro before
    refine (Reordered.member k before members hvw).trans ?_
    simpa only [append_assoc, singleton_append] using ih (before ++ [(k, w)])

/-- What reordering leaves alone: scalars, the order of the items of an array, the keys of an
object. -/
def SameShape : Value φ → Value φ → Prop
  | .array items, w => ∃ items', w = .array items' ∧ List.Forall₂ Reordered items items'
  | .object members, w =>
    ∃ members', w = .object members' ∧ (members.map Prod.fst).Perm (members'.map Prod.fst)
  | v, w => w = v

theorem sameShape_refl : ∀ v : Value φ, SameShape v v
  | .null | .bool _ | .number _ | .string _ => rfl
  | .array items => ⟨items, rfl, forall₂_same.mpr fun v _ => .refl v⟩
  | .object members => ⟨members, rfl, .refl _⟩

theorem forall₂_trans {items'' : List (Value φ)}
    (h : List.Forall₂ Reordered items items') (h' : List.Forall₂ Reordered items' items'') :
    List.Forall₂ Reordered items items'' := by
  induction h generalizing items'' with
  | nil => exact h'
  | cons huv _ ih =>
    cases h' with
    | cons hvw h' => exact .cons (huv.trans hvw) (ih h')

theorem SameShape.trans {u : Value φ} (huv : SameShape u v) (hvw : SameShape v w) : SameShape u w := by
  cases u with
  | null | bool _ | number _ | string _ =>
    obtain rfl : v = _ := huv
    exact hvw
  | array items =>
    obtain ⟨items', rfl, hi⟩ := huv
    obtain ⟨items'', rfl, hi'⟩ := hvw
    exact ⟨items'', rfl, forall₂_trans hi hi'⟩
  | object members =>
    obtain ⟨members', rfl, hm⟩ := huv
    obtain ⟨members'', rfl, hm'⟩ := hvw
    exact ⟨members'', rfl, hm.trans hm'⟩

theorem Reordered.sameShape (h : v.Reordered w) : SameShape v w := by
  induction h with
  | refl v => exact sameShape_refl v
  | trans _ _ ih ih' => exact ih.trans ih'
  | item before after hvw _ =>
    have hsame : ∀ l : List (Value φ), List.Forall₂ Reordered l l :=
      fun l => forall₂_same.mpr fun v _ => .refl v
    exact ⟨_, rfl, rel_append (hsame before) (.cons hvw (hsame after))⟩
  | member k before after _ _ => exact ⟨_, rfl, by rw [map_append, map_append]; rfl⟩
  | perm hperm => exact ⟨_, rfl, hperm.map _⟩

end Value

end Reorder

end McpToolkit.Lib.Json

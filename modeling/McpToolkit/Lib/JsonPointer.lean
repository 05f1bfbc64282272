import McpToolkit.Lib.Json
import McpToolkit.Lib.Word

/-!
# McpToolkit.Lib.JsonPointer — values inside a value, and pointers to them

A pointer is empty, for the value itself, or a list of tokens with a slash in front of each.  In a
token `~1` stands for a slash and `~0` for a tilde.  A token names a member of an object, or the
position of an item, in decimal without leading zeros.
-/

namespace McpToolkit.Lib.Json

open List (splitOnP)


variable {φ : Type}

def slash : UInt8 := 47
def tilde : UInt8 := 126

namespace Value

def asObject : Value φ → Option (List (List UInt8 × Value φ))
  | .object members => some members
  | _ => none

def asString : Value φ → Option (List UInt8)
  | .string text => some text
  | _ => none

def isObject (v : Value φ) : Bool := v.asObject.isSome

def isArray : Value φ → Bool
  | .array _ => true
  | _ => false

def isBoolean : Value φ → Bool
  | .bool _ => true
  | _ => false

/-- The first value is the second or stands somewhere in it. -/
inductive Inside : Value φ → Value φ → Prop
  | refl (v : Value φ) : Inside v v
  | item {u v : Value φ} {items : List (Value φ)} : v ∈ items → Inside u v → Inside u (.array items)
  | member {u v : Value φ} {key : List UInt8} {members : List (List UInt8 × Value φ)} :
      (key, v) ∈ members → Inside u v → Inside u (.object members)

theorem Inside.trans {u v w : Value φ} (h : Inside u v) (h' : Inside v w) : Inside u w := by
  induction h' with
  | refl => exact h
  | item hmem _ ih => exact .item hmem ih
  | member hmem _ ih => exact .member hmem ih

end Value

/-- Every `first second` becomes one byte, from the left. -/
def replacePair (first second byte : UInt8) : List UInt8 → List UInt8
  | [] => []
  | [b] => [b]
  | b :: c :: rest =>
    if b = first ∧ c = second then byte :: replacePair first second byte rest
    else b :: replacePair first second byte (c :: rest)

/-- What a token stands for: the escapes of slashes are read first. -/
def unescapeToken (token : List UInt8) : List UInt8 :=
  replacePair tilde 48 tilde (replacePair tilde 49 slash token)

/-- A position: digits only, no zero in front of others, and within a machine word. -/
def parseIndex (token : List UInt8) : Option ℕ :=
  if token.isEmpty || !token.all (fun b => 48 ≤ b && b ≤ 57) || token.head? == some 48 && token.length != 1 then none
  else
    let index := token.foldl (fun n b => n * 10 + (b.toNat - 48)) 0
    if index ≤ Word.u64Max then some index else none

def Value.token : Value φ → List UInt8 → Option (Value φ)
  | .object members, name => members.lookup name
  | .array items, name => (parseIndex name).bind fun i => items[i]?
  | _, _ => none

def Value.pointer (v : Value φ) : List UInt8 → Option (Value φ)
  | [] => some v
  | b :: path => if b = slash then ((splitOnP (· == slash) path).map unescapeToken).foldlM Value.token v else none

variable {v w : Value φ}

theorem mem_of_lookup {members : List (List UInt8 × Value φ)} {key : List UInt8}
    (h : members.lookup key = some v) : (key, v) ∈ members := by
  obtain ⟨before, after, rfl, -⟩ := List.lookup_eq_some_iff.mp h
  exact List.mem_append_right _ List.mem_cons_self

theorem Value.inside_of_token {name : List UInt8} (h : v.token name = some w) : w.Inside v := by
  cases v with
  | object members => exact .member (mem_of_lookup h) (.refl w)
  | array items =>
    obtain ⟨i, -, hi⟩ := Option.bind_eq_some_iff.mp h
    exact .item (List.mem_of_getElem? hi) (.refl w)
  | null => cases h
  | bool b => cases h
  | number n => cases h
  | string s => cases h

theorem Value.inside_of_tokens : ∀ {names : List (List UInt8)} {v : Value φ},
    names.foldlM Value.token v = some w → w.Inside v
  | [], v, h => by
    obtain rfl := Option.some.inj h
    exact .refl v
  | name :: names, v, h => by
    rw [List.foldlM_cons] at h
    obtain ⟨u, hu, h⟩ := Option.bind_eq_some_iff.mp h
    exact (inside_of_tokens h).trans (inside_of_token hu)

/-- **A pointer leads to a value inside the document.** -/
theorem Value.inside_of_pointer {path : List UInt8} (h : v.pointer path = some w) : w.Inside v := by
  unfold pointer at h
  split at h
  · obtain rfl := Option.some.inj h
    exact .refl v
  · split_ifs at h
    exact inside_of_tokens h

end McpToolkit.Lib.Json

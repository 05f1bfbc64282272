import McpToolkit.Lib.JsonPointer
import McpToolkit.Lib.Percent

/-!
# McpToolkit.Core.ToolSchema — the bounded dialect of tool schemas

`validate_schema_dialect` of `tool_schema.rs`.  A document is measured, its root is followed through
references, and then all of its schemas are traversed.  Where a schema has a reference, a second
traversal goes through what the reference leads to, and through the references there.

The two traversals are the same but for what they count and for the values that are no schemas, so
they are one definition (`Pass`), whose parameters say what is done at a schema, at a container of
schemas, at data and at a reference.  References are followed to a depth that is given in advance;
`follow_eq` of `SchemaReferences` shows that the depth never decides: the functions satisfy the
equations of the source.

Texts are UTF-8 bytes, and `usize` has 64 bits.
-/

namespace McpToolkit.Core.ToolSchema

open Lib.Json Lib.Word
open Lib.Text (ascii utf8Decode)
open Lib.Percent (percent octet)

variable {φ : Type}

structure SchemaDialectPolicy where
  requireObjectRoot : Bool
  forbiddenRootKeywords : List (List UInt8)
  maxReferenceDepth : ℕ
  maxNodes : ℕ
  maxInputBytes : ℕ
  maxReferenceBytes : ℕ

def SchemaDialectPolicy.new : SchemaDialectPolicy := ⟨true, [], 32, 1024, 1024 * 1024, 4 * 1024⟩

inductive SchemaDialectError where
  | rootMustBeObject
  | forbiddenRootKeyword (keyword : List UInt8)
  | unsupportedReference (reference : List UInt8)
  | invalidJsonPointerEscape (reference : List UInt8)
  | unsupportedReferenceKeyword (keyword : List UInt8)
  | unsupportedSchemaKeyword (keyword : List UInt8)
  | unresolvedReference (reference : List UInt8)
  | recursiveReference (reference : List UInt8)
  | referenceDepthExceeded (maxReferenceDepth : ℕ)
  | nodeBudgetExceeded (maxNodes : ℕ)
  | inputBudgetExceeded (maxInputBytes : ℕ)
  | referenceBudgetExceeded (maxReferenceBytes : ℕ)
  | invalidSchemaShape (keyword expected actual : List UInt8)
  deriving DecidableEq

/-! ### The size of the input -/

structure SchemaInputBudget where
  nodes : ℕ
  bytes : ℕ

abbrev Measure := SchemaInputBudget → Except SchemaDialectError SchemaInputBudget

def inputBudgetExceeded (policy : SchemaDialectPolicy) : SchemaDialectError :=
  .inputBudgetExceeded policy.maxInputBytes

def chargeInputBytes (policy : SchemaDialectPolicy) (bytes : ℕ) : Measure := fun budget =>
  match checkedAdd budget.bytes bytes with
  | none => .error (inputBudgetExceeded policy)
  | some total =>
    if policy.maxInputBytes < total then .error (inputBudgetExceeded policy) else .ok { budget with bytes := total }

/-- The bytes that are written as a backslash and a letter. -/
def isTwoByteEscape (b : UInt8) : Bool :=
  b == quote || b == backslash || b == 8 || b == 12 || b == 10 || b == 13 || b == 9

def isSixByteEscape (b : UInt8) : Bool := !isTwoByteEscape b && b ≤ 31

def chargeJsonStringBytes (policy : SchemaDialectPolicy) (value : List UInt8) : Measure := fun budget =>
  let escapedExtraBytes := (checkedMul (value.countP isSixByteEscape) 5).bind (checkedAdd (value.countP isTwoByteEscape))
  match escapedExtraBytes.bind fun extra => (checkedAdd value.length 2).bind fun quoted => checkedAdd quoted extra with
  | none => .error (inputBudgetExceeded policy)
  | some serializedBytes => chargeInputBytes policy serializedBytes budget

def chargeJsonNumberBytes (fmt : FloatFormat φ) (policy : SchemaDialectPolicy) (number : Number φ) : Measure :=
  chargeInputBytes policy (writeNumber fmt number).length

def countInputNode (policy : SchemaDialectPolicy) : Measure := fun budget =>
  match checkedAdd budget.nodes 1 with
  | none => .error (.nodeBudgetExceeded policy.maxNodes)
  | some nodes =>
    if policy.maxNodes < nodes then .error (.nodeBudgetExceeded policy.maxNodes) else .ok { budget with nodes }

section Preflight

variable (fmt : FloatFormat φ) (policy : SchemaDialectPolicy)

mutual

def preflightJsonValue : Value φ → Measure
  | .null => fun budget => do chargeInputBytes policy 4 (← countInputNode policy budget)
  | .bool true => fun budget => do chargeInputBytes policy 4 (← countInputNode policy budget)
  | .bool false => fun budget => do chargeInputBytes policy 5 (← countInputNode policy budget)
  | .number number => fun budget => do chargeJsonNumberBytes fmt policy number (← countInputNode policy budget)
  | .string text => fun budget => do chargeJsonStringBytes policy text (← countInputNode policy budget)
  | .array items => fun budget => do
    let budget ← countInputNode policy budget
    let budget ← chargeInputBytes policy 2 budget
    let budget ← chargeInputBytes policy (items.length - 1) budget
    preflightItems items budget
  | .object members => fun budget => do
    let budget ← countInputNode policy budget
    let budget ← chargeInputBytes policy 2 budget
    let budget ← chargeInputBytes policy (members.length - 1) budget
    let budget ← chargeInputBytes policy members.length budget
    preflightMembers members budget

def preflightItems : List (Value φ) → Measure
  | [] => .ok
  | value :: items => fun budget => do preflightItems items (← preflightJsonValue value budget)

def preflightMembers : List (List UInt8 × Value φ) → Measure
  | [] => .ok
  | (key, value) :: members => fun budget => do
    let budget ← chargeJsonStringBytes policy key budget
    preflightMembers members (← preflightJsonValue value budget)

end

def preflightSchemaInput (schema : Value φ) : Except SchemaDialectError SchemaInputBudget :=
  preflightJsonValue fmt policy schema ⟨0, 0⟩

end Preflight

/-! ### References -/

/-- The state of a traversal. -/
structure SchemaTraversalState where
  nodes : ℕ
  referenceGraphNodes : ℕ
  activeReferences : List (List UInt8)

def SchemaTraversalState.initial : SchemaTraversalState := ⟨0, 0, []⟩

abbrev Traverse := StateT SchemaTraversalState (Except SchemaDialectError)

/-- Whether a text may be cut in front of this position. -/
def isCharBoundary (text : List UInt8) (index : ℕ) : Bool :=
  index == 0 || index == text.length || (text[index]?).any fun b => b &&& 0xC0 != 0x80

/-- The last boundary up to a position. -/
def previewEnd (text : List UInt8) : ℕ → ℕ
  | 0 => 0
  | index + 1 => if isCharBoundary text (index + 1) then index + 1 else previewEnd text index

def referenceErrorPreviewBytes : ℕ := 128

def referenceErrorPreview (reference : List UInt8) : List UInt8 :=
  if reference.length ≤ referenceErrorPreviewBytes then reference
  else reference.take (previewEnd reference referenceErrorPreviewBytes) ++ ascii "..."

def referenceValuePreview : Value φ → List UInt8
  | .string reference => referenceErrorPreview reference
  | .null => ascii "<null>"
  | .bool _ => ascii "<boolean>"
  | .number _ => ascii "<number>"
  | .array _ => ascii "<array>"
  | .object _ => ascii "<object>"

/-- Every tilde is followed by `0` or `1`. -/
def hasValidJsonPointerEscapes : List UInt8 → Bool
  | [] => true
  | [b] => b != tilde
  | b :: c :: rest =>
    if b = tilde then (c == 48 || c == 49) && hasValidJsonPointerEscapes rest
    else hasValidJsonPointerEscapes (c :: rest)

/-- Every escape must be well formed. -/
def decodeEscapes : List UInt8 → Option (List UInt8)
  | [] => some []
  | b :: rest =>
    if b = percent then
      match rest with
      | high :: low :: rest => do
        let byte ← octet high low
        let decoded ← decodeEscapes rest
        return byte :: decoded
      | _ => none
    else (decodeEscapes rest).map (b :: ·)

def decodeUriFragment (input : List UInt8) : Option (List UInt8) :=
  if input.contains percent then (decodeEscapes input).filter fun decoded => (utf8Decode decoded).isSome else some input

def referenceStart : List UInt8 := ascii "#/$defs/"
def pointerStart : List UInt8 := ascii "/$defs/"

def localReferencePointer (reference : List UInt8) (policy : SchemaDialectPolicy) :
    Except SchemaDialectError (List UInt8) :=
  if policy.maxReferenceBytes < reference.length then .error (.referenceBudgetExceeded policy.maxReferenceBytes)
  else if referenceStart.isPrefixOf reference then
    match decodeUriFragment (reference.drop referenceStart.length) with
    | none => .error (.unsupportedReference (referenceErrorPreview reference))
    | some decodedPath =>
      if hasValidJsonPointerEscapes decodedPath then .ok (pointerStart ++ decodedPath)
      else .error (.invalidJsonPointerEscape (referenceErrorPreview reference))
  else .error (.unsupportedReference (referenceErrorPreview reference))

/-- While the target is visited, its pointer is the last of the active ones. -/
def visitActive {τ : Type} (pointer : List UInt8) (visit : Traverse τ) : Traverse τ := fun state =>
  (visit { state with activeReferences := state.activeReferences ++ [pointer] }).map fun (result, state) =>
    (result, { state with activeReferences := state.activeReferences.dropLast })

def resolveReference {τ : Type} (reference : List UInt8) (document : Value φ) (policy : SchemaDialectPolicy)
    (visit : Value φ → Traverse τ) : Traverse τ := fun state =>
  match localReferencePointer reference policy with
  | .error error => .error error
  | .ok pointer =>
    if policy.maxReferenceDepth ≤ state.activeReferences.length then
      .error (.referenceDepthExceeded policy.maxReferenceDepth)
    else if state.activeReferences.contains pointer then .error (.recursiveReference (referenceErrorPreview reference))
    else
      match document.pointer pointer with
      | none => .error (.unresolvedReference (referenceErrorPreview reference))
      | some resolved => visitActive pointer (visit resolved) state

/-- The reference of a keyword's value, which must be a text. -/
def resolveReferenceValue {τ : Type} (reference : Value φ) (document : Value φ) (policy : SchemaDialectPolicy)
    (visit : Value φ → Traverse τ) : Traverse τ :=
  match reference.asString with
  | none => throw (.unsupportedReference (referenceValuePreview reference))
  | some text => resolveReference text document policy visit

/-- References inside references, to a given depth.  `visit` says what is done with a schema, given
what is done with the references in it. -/
def follow {τ : Type} (document : Value φ) (policy : SchemaDialectPolicy)
    (visit : (Value φ → Traverse τ) → Value φ → Traverse τ) : ℕ → Value φ → Traverse τ
  | 0, reference => resolveReferenceValue reference document policy fun _ =>
    throw (.referenceDepthExceeded policy.maxReferenceDepth)
  | depth + 1, reference => resolveReferenceValue reference document policy (visit (follow document policy visit depth))

/-! ### Schemas -/

/-- What the value of a keyword is. -/
inductive KeywordKind where
  | schemaMap
  | schemaArray
  | schemaOrArray
  | schema
  | dependencies
  | data
  deriving DecidableEq

def schemaMapKeywords : List (List UInt8) :=
  ["$defs", "properties", "patternProperties", "dependentSchemas"].map ascii

def schemaArrayKeywords : List (List UInt8) := ["allOf", "anyOf", "oneOf", "prefixItems"].map ascii

def schemaKeywords : List (List UInt8) :=
  ["additionalItems", "additionalProperties", "contains", "propertyNames", "not", "if", "then", "else",
    "unevaluatedProperties", "unevaluatedItems", "contentSchema"].map ascii

def keywordKind (keyword : List UInt8) : KeywordKind :=
  if schemaMapKeywords.contains keyword then .schemaMap
  else if schemaArrayKeywords.contains keyword then .schemaArray
  else if keyword == ascii "items" then .schemaOrArray
  else if schemaKeywords.contains keyword then .schema
  else if keyword == ascii "dependencies" then .dependencies
  else .data

def jsonShape : Value φ → List UInt8
  | .object _ => ascii "an object"
  | .array _ => ascii "an array"
  | .bool _ => ascii "a boolean"
  | .null => ascii "null"
  | .number _ => ascii "a number"
  | .string _ => ascii "a string"

def invalidSchemaShape (keyword : List UInt8) (expected : String) (value : Value φ) : SchemaDialectError :=
  .invalidSchemaShape keyword (ascii expected) (jsonShape value)

def containsKey (members : List (List UInt8 × Value φ)) (key : List UInt8) : Bool := (members.lookup key).isSome

def rejectUnsupportedReferenceKeywords (schema : List (List UInt8 × Value φ)) : Except SchemaDialectError Unit :=
  match (["$dynamicRef", "$recursiveRef"].map ascii).find? (containsKey schema) with
  | some keyword => .error (.unsupportedReferenceKeyword keyword)
  | none => .ok ()

def rejectUnsupportedSchemaKeywords (schema : List (List UInt8 × Value φ)) : Except SchemaDialectError Unit :=
  if containsKey schema (ascii "$id") then .error (.unsupportedSchemaKeyword (ascii "$id"))
  else rejectUnsupportedReferenceKeywords schema

def refKeyword : List UInt8 := ascii "$ref"

/-- What a traversal does where it comes. -/
structure Pass (φ : Type) where
  schema : Traverse Unit
  container : Traverse Unit
  data : Value φ → Traverse Unit
  reference : Value φ → Traverse Unit

namespace Pass

variable (t : Pass φ)

def atReference (object : List (List UInt8 × Value φ)) : Traverse Unit :=
  match object.lookup refKeyword with
  | none => pure ()
  | some reference => t.reference reference

mutual

def schemaAt (context : List UInt8) : Value φ → Traverse Unit
  | .object object => do
    t.schema
    rejectUnsupportedSchemaKeywords object
    t.atReference object
    members object
  | .bool _ => t.schema
  | schema => do
    t.schema
    throw (invalidSchemaShape context "an object or boolean" schema)

/-- The loop over the members of a schema. -/
def members : List (List UInt8 × Value φ) → Traverse Unit
  | [] => pure ()
  | (keyword, value) :: rest =>
    (match keywordKind keyword with
    | .schemaMap =>
      match value with
      | .object schemas => t.container >>= fun _ => entries keyword schemas
      | value => throw (invalidSchemaShape keyword "an object" value)
    | .schemaArray =>
      match value with
      | .array schemas => t.container >>= fun _ => items keyword schemas
      | value => throw (invalidSchemaShape keyword "an array" value)
    | .schemaOrArray =>
      if value.isArray then
        match value with
        | .array schemas => t.container >>= fun _ => items keyword schemas
        | value => throw (invalidSchemaShape keyword "an array" value)
      else schemaAt keyword value
    | .schema => schemaAt keyword value
    | .dependencies =>
      match value with
      | .object schemas => t.container >>= fun _ => dependencies schemas
      | value => throw (invalidSchemaShape (ascii "dependencies") "an object" value)
    | .data => t.data value) >>= fun _ => members rest

def entries (keyword : List UInt8) : List (List UInt8 × Value φ) → Traverse Unit
  | [] => pure ()
  | (_, schema) :: rest => do
    schemaAt keyword schema
    entries keyword rest

def items (keyword : List UInt8) : List (Value φ) → Traverse Unit
  | [] => pure ()
  | schema :: rest => do
    schemaAt keyword schema
    items keyword rest

def dependencies : List (List UInt8 × Value φ) → Traverse Unit
  | [] => pure ()
  | (_, dependency) :: rest =>
    (if dependency.isObject || dependency.isBoolean then schemaAt (ascii "dependencies") dependency
    else if !dependency.isArray then
      throw (invalidSchemaShape (ascii "dependencies") "a schema object, boolean, or array" dependency)
    else t.data dependency) >>= fun _ => dependencies rest

end

/-! The functions of the source for the values of keywords; `members` calls them (`members_cons`). -/

def schemaMap (keyword : List UInt8) : Value φ → Traverse Unit
  | .object schemas => t.container >>= fun _ => t.entries keyword schemas
  | schemas => throw (invalidSchemaShape keyword "an object" schemas)

def schemaArray (keyword : List UInt8) : Value φ → Traverse Unit
  | .array schemas => t.container >>= fun _ => t.items keyword schemas
  | schemas => throw (invalidSchemaShape keyword "an array" schemas)

def schemaOrArray (keyword : List UInt8) (schema : Value φ) : Traverse Unit :=
  if schema.isArray then t.schemaArray keyword schema else t.schemaAt keyword schema

def dependencyMap : Value φ → Traverse Unit
  | .object schemas => t.container >>= fun _ => t.dependencies schemas
  | schemas => throw (invalidSchemaShape (ascii "dependencies") "an object" schemas)

def atKeyword (keyword : List UInt8) (value : Value φ) : Traverse Unit :=
  match keywordKind keyword with
  | .schemaMap => t.schemaMap keyword value
  | .schemaArray => t.schemaArray keyword value
  | .schemaOrArray => t.schemaOrArray keyword value
  | .schema => t.schemaAt keyword value
  | .dependencies => t.dependencyMap value
  | .data => t.data value

theorem members_cons (keyword : List UInt8) (value : Value φ) (rest : List (List UInt8 × Value φ)) :
    t.members ((keyword, value) :: rest) = t.atKeyword keyword value >>= fun _ => t.members rest := by
  conv => lhs; unfold members
  unfold atKeyword
  cases keywordKind keyword <;> cases value <;> rfl

end Pass

/-! ### The traversals -/

def countNode (policy : SchemaDialectPolicy) : Traverse Unit := fun state =>
  let nodes := saturatingAdd state.nodes 1
  if policy.maxNodes < nodes then .error (.nodeBudgetExceeded policy.maxNodes) else .ok ((), { state with nodes })

def countReferenceGraphNode (policy : SchemaDialectPolicy) : Traverse Unit := fun state =>
  let referenceGraphNodes := saturatingAdd state.referenceGraphNodes 1
  if policy.maxNodes < referenceGraphNodes then .error (.nodeBudgetExceeded policy.maxNodes)
  else .ok ((), { state with referenceGraphNodes })

mutual

def traverseData (policy : SchemaDialectPolicy) : Value φ → Traverse Unit
  | .object object => do
    countNode policy
    traverseDataMembers policy object
  | .array values => do
    countNode policy
    traverseDataItems policy values
  | _ => countNode policy

def traverseDataItems (policy : SchemaDialectPolicy) : List (Value φ) → Traverse Unit
  | [] => pure ()
  | value :: values => do
    traverseData policy value
    traverseDataItems policy values

def traverseDataMembers (policy : SchemaDialectPolicy) : List (List UInt8 × Value φ) → Traverse Unit
  | [] => pure ()
  | (_, value) :: members => do
    traverseData policy value
    traverseDataMembers policy members

end

def rootContext : List UInt8 := ascii "<schema>"

def referenceGraphPass (policy : SchemaDialectPolicy) (reference : Value φ → Traverse Unit) : Pass φ where
  schema := countReferenceGraphNode policy
  container := pure ()
  data := fun _ => pure ()
  reference := reference

def visitReferenceGraph (policy : SchemaDialectPolicy) (reference : Value φ → Traverse Unit) (schema : Value φ) :
    Traverse Unit :=
  (referenceGraphPass policy reference).schemaAt rootContext schema

def validateReferenceGraph (reference document : Value φ) (policy : SchemaDialectPolicy) : Traverse Unit :=
  follow document policy (visitReferenceGraph policy) policy.maxReferenceDepth reference

def traverseReferenceGraphSchema (schema document : Value φ) (policy : SchemaDialectPolicy) : Traverse Unit :=
  visitReferenceGraph policy (fun reference => validateReferenceGraph reference document policy) schema

def schemaPass (document : Value φ) (policy : SchemaDialectPolicy) : Pass φ where
  schema := countNode policy
  container := countNode policy
  data := traverseData policy
  reference := fun reference => validateReferenceGraph reference document policy

def traverseSchema (schema document : Value φ) (policy : SchemaDialectPolicy) : Traverse Unit :=
  (schemaPass document policy).schemaAt rootContext schema

/-! ### The root -/

def checkRootKeywords (schema : Value φ) (policy : SchemaDialectPolicy) : Except SchemaDialectError Unit :=
  match schema.asObject with
  | none => .error .rootMustBeObject
  | some object =>
    match policy.forbiddenRootKeywords.find? (containsKey object) with
    | some keyword => .error (.forbiddenRootKeyword keyword)
    | none => .ok ()

def validTypes : List (List UInt8) :=
  ["null", "boolean", "object", "array", "number", "integer", "string"].map ascii

/-- The loop over the names of an array of types; a bit for every type that was seen. -/
def readTypes : List (Value φ) → UInt8 → Bool → Except SchemaDialectError Bool
  | [], _, includesObject => .ok includesObject
  | typeName :: typeNames, seenTypes, includesObject =>
    match typeName.asString.bind fun name => (validTypes.idxOf? name).map fun index => (name, index) with
    | none => .error .rootMustBeObject
    | some (name, index) =>
      let typeBit : UInt8 := 1 <<< index.toUInt8
      if seenTypes &&& typeBit != 0 then .error .rootMustBeObject
      else readTypes typeNames (seenTypes ||| typeBit) (includesObject || name == ascii "object")

def rootTypeIncludesObject : Option (Value φ) → Except SchemaDialectError Bool
  | none => .ok false
  | some (.string typeName) =>
    if validTypes.contains typeName then .ok (typeName == ascii "object") else .error .rootMustBeObject
  | some (.array typeNames) =>
    if typeNames.isEmpty || validTypes.length < typeNames.length then .error .rootMustBeObject
    else readTypes typeNames 0 false
  | some _ => .error .rootMustBeObject

def validateRootChainSchema (schema : Value φ) (policy : SchemaDialectPolicy) : Except SchemaDialectError Unit :=
  match schema.asObject with
  | none => if schema.isBoolean && !policy.requireObjectRoot then .ok () else .error .rootMustBeObject
  | some object => do
    checkRootKeywords schema policy
    rejectUnsupportedSchemaKeywords object
    let hasObjectType ← rootTypeIncludesObject (object.lookup (ascii "type"))
    let typePresent := containsKey object (ascii "type")
    let hasReference := containsKey object refKeyword
    if policy.requireObjectRoot && !hasObjectType && (!hasReference || typePresent) then .error .rootMustBeObject
    else .ok ()

def visitRoot (policy : SchemaDialectPolicy) (reference : Value φ → Traverse (Value φ)) (schema : Value φ) :
    Traverse (Value φ) := do
  validateRootChainSchema schema policy
  match schema.asObject.bind (List.lookup refKeyword) with
  | none => pure schema
  | some target => reference target

def resolveRoot (schema document : Value φ) (policy : SchemaDialectPolicy) : Traverse (Value φ) :=
  visitRoot policy (follow document policy (visitRoot policy) policy.maxReferenceDepth) schema

def validateSchemaDialect (fmt : FloatFormat φ) (schema : Value φ) (policy : SchemaDialectPolicy) :
    Except SchemaDialectError Unit := do
  let _ ← preflightSchemaInput fmt policy schema
  if schema.isObject then
    let (_, state) ← resolveRoot schema schema policy .initial
    let _ ← traverseSchema schema schema policy state
    return ()
  else .error .rootMustBeObject

end McpToolkit.Core.ToolSchema

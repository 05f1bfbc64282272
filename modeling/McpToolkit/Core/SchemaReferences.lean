import McpToolkit.Core.ToolSchema
import McpToolkit.Lib.Unfold

/-!
# McpToolkit.Core.SchemaReferences — the references of an accepted schema

A schema unfolds into the schemas in it and into what its reference leads to.  If a document is
accepted, every reference that the unfolding meets leads to a value of the document, and the
unfolding ends.

The proof follows the traversals.  They give back the active references as they found them, so a
successful traversal has visited every schema in a schema, and the target of every reference, with
the references active that lead there (`Succeeds`); and those are at most `max_reference_depth`.
-/

namespace McpToolkit.Core.ToolSchema

open List
open Lib Lib.Json
open Lib.Text (ascii)

variable {φ τ τ' : Type}

/-! ### Traversals and their active references -/

section Traversals

variable {active : List (List UInt8)} {x y : Traverse τ} {f g : τ → Traverse τ'}

/-- From every state with these active references, both do the same and leave them as they are. -/
def Alike (active : List (List UInt8)) (x y : Traverse τ) : Prop :=
  ∀ state, state.activeReferences = active → x state = y state ∧
    ∀ result state', x state = .ok (result, state') → state'.activeReferences = active

abbrev Keeps (active : List (List UInt8)) (x : Traverse τ) : Prop := Alike active x x

/-- It succeeds from some state with these active references. -/
def Succeeds (active : List (List UInt8)) (x : Traverse τ) : Prop :=
  ∃ state result state', state.activeReferences = active ∧ x state = .ok (result, state')

theorem bind_eq_ok {state state'' : SchemaTraversalState} {result : τ'} : (x >>= f) state = .ok (result, state'') ↔
      ∃ r state', x state = .ok (r, state') ∧ f r state' = .ok (result, state'') := by
  have hbind : (x >>= f) state = (x state).bind fun p => f p.1 p.2 := rfl
  rw [hbind]
  cases hx : x state with
  | error e => simp [Except.bind]
  | ok p => simp [Except.bind, Prod.ext_iff]

theorem Alike.pure (r : τ) : Keeps active (Pure.pure r : Traverse τ) := by
  rintro state rfl
  refine ⟨rfl, fun result state' h => ?_⟩
  obtain ⟨-, rfl⟩ := Prod.mk.inj (Except.ok.inj h)
  rfl

theorem Alike.throw (error : SchemaDialectError) : Keeps active (throw error : Traverse τ) := by
  rintro state rfl
  exact ⟨rfl, fun result state' h => by cases h⟩

theorem Alike.lift (e : Except SchemaDialectError τ) : Keeps active (liftM e : Traverse τ) := by
  cases e with
  | error error => exact .throw error
  | ok r => exact .pure r

theorem Alike.bind (hx : Alike active x y) (hf : ∀ r, Alike active (f r) (g r)) : Alike active (x >>= f) (y >>= g) := by
  intro state hstate
  obtain ⟨heq, hkeeps⟩ := hx state hstate
  have hleft : (x >>= f) state = (x state).bind fun p => f p.1 p.2 := rfl
  have hright : (y >>= g) state = (y state).bind fun p => g p.1 p.2 := rfl
  constructor
  · rw [hleft, hright, ← heq]
    cases hrun : x state with
    | error e => rfl
    | ok p => exact (hf p.1 p.2 (hkeeps p.1 p.2 hrun)).1
  · intro result state'' h
    obtain ⟨r, state', hrun, h⟩ := bind_eq_ok.mp h
    exact (hf r state' (hkeeps r state' hrun)).2 result state'' h

theorem Succeeds.of_bind (h : Succeeds active (x >>= f)) (hx : Keeps active x) :
    Succeeds active x ∧ ∃ r, Succeeds active (f r) := by
  obtain ⟨state, result, state'', hstate, h⟩ := h
  obtain ⟨r, state', hrun, h⟩ := bind_eq_ok.mp h
  exact ⟨⟨state, r, state', hstate, hrun⟩, r, state', result, state'', (hx state hstate).2 r state' hrun, h⟩

theorem not_succeeds_throw {error : SchemaDialectError} : ¬Succeeds active (throw error : Traverse τ) := by
  rintro ⟨state, result, state', -, h⟩
  cases h

/-- One traversal after the other. -/
def inTurn : List (Traverse Unit) → Traverse Unit
  | [] => pure ()
  | x :: rest => x >>= fun _ => inTurn rest

theorem Alike.inTurn {α : Type} {f g : α → Traverse Unit} : ∀ {l : List α},
    (∀ e ∈ l, Alike active (f e) (g e)) → Alike active (inTurn (l.map f)) (inTurn (l.map g))
  | [], _ => .pure ()
  | _ :: _, h =>
    (h _ mem_cons_self).bind fun _ => Alike.inTurn fun e he => h e (mem_cons_of_mem _ he)

theorem Succeeds.of_inTurn {α : Type} {f : α → Traverse Unit} : ∀ {l : List α},
    Succeeds active (inTurn (l.map f)) → (∀ e ∈ l, Keeps active (f e)) → ∀ e ∈ l, Succeeds active (f e)
  | [], _, _, _, he => by cases he
  | head :: rest, h, hkeeps, e, he => by
    obtain ⟨hhead, -, hrest⟩ := h.of_bind (hkeeps head mem_cons_self)
    obtain rfl | he := mem_cons.mp he
    · exact hhead
    · exact Succeeds.of_inTurn hrest (fun e he => hkeeps e (mem_cons_of_mem _ he)) e he

end Traversals

/-! ### References -/

section References

variable {document reference : Value φ} {policy : SchemaDialectPolicy} {active : List (List UInt8)}

theorem Alike.visitActive {x y : Traverse τ} {pointer : List UInt8} (h : Alike (active ++ [pointer]) x y) :
    Alike active (visitActive pointer x) (visitActive pointer y) := by
  rintro state rfl
  obtain ⟨heq, hkeeps⟩ := h { state with activeReferences := state.activeReferences ++ [pointer] } rfl
  unfold ToolSchema.visitActive
  refine ⟨by rw [heq], fun result state' hrun => ?_⟩
  cases hx : x { state with activeReferences := state.activeReferences ++ [pointer] } with
  | error e => rw [hx] at hrun; cases hrun
  | ok p =>
    rw [hx] at hrun
    obtain ⟨-, rfl⟩ := Prod.mk.inj (Except.ok.inj hrun)
    show p.2.activeReferences.dropLast = state.activeReferences
    rw [hkeeps p.1 p.2 hx, dropLast_concat]

theorem Alike.resolveReference {visit visit' : Value φ → Traverse τ}
    (h : active.length < policy.maxReferenceDepth → ∀ pointer target,
      Alike (active ++ [pointer]) (visit target) (visit' target)) (text : List UInt8) :
    Alike active (resolveReference text document policy visit) (resolveReference text document policy visit') := by
  rintro state rfl
  unfold ToolSchema.resolveReference
  cases localReferencePointer text policy with
  | error e => exact ⟨rfl, fun _ _ h => by cases h⟩
  | ok pointer =>
    dsimp only
    split_ifs with hdepth
    · exact ⟨rfl, fun _ _ h => by cases h⟩
    · exact ⟨rfl, fun _ _ h => by cases h⟩
    · cases document.pointer pointer with
      | none => exact ⟨rfl, fun _ _ h => by cases h⟩
      | some target => exact (h (not_le.mp hdepth) pointer target).visitActive state rfl

theorem Alike.resolveReferenceValue {visit visit' : Value φ → Traverse τ}
    (h : active.length < policy.maxReferenceDepth → ∀ pointer target,
      Alike (active ++ [pointer]) (visit target) (visit' target)) :
    Alike active (resolveReferenceValue reference document policy visit)
      (resolveReferenceValue reference document policy visit') := by
  unfold ToolSchema.resolveReferenceValue
  cases reference.asString with
  | none => exact .throw _
  | some text => exact .resolveReference h text

variable {visit : (Value φ → Traverse τ) → Value φ → Traverse τ}

/-- What is done with a schema depends on the references in it only through what is done with them. -/
def Local (visit : (Value φ → Traverse τ) → Value φ → Traverse τ) : Prop :=
  ∀ {active : List (List UInt8)} {f g : Value φ → Traverse τ}, (∀ reference, Alike active (f reference) (g reference)) →
    ∀ schema, Alike active (visit f schema) (visit g schema)

theorem follow_alike (hvisit : Local visit) : ∀ (m n : ℕ) {active : List (List UInt8)} {reference : Value φ},
    m = n ∨ policy.maxReferenceDepth ≤ min m n + active.length →
      Alike active (follow document policy visit m reference) (follow document policy visit n reference)
  | 0, 0, _, _, _ => .resolveReferenceValue fun _ _ _ => .throw _
  | 0, n + 1, _, _, h => .resolveReferenceValue fun hlt => by omega
  | m + 1, 0, _, _, h => .resolveReferenceValue fun hlt => by omega
  | m + 1, n + 1, active, _, h => .resolveReferenceValue fun _ pointer target =>
    hvisit (fun reference => follow_alike hvisit m n (by rw [length_append, length_singleton]; omega)) target

/-- **The depth never decides**: references are followed as in the source, each visit with the same
function. -/
theorem follow_eq (hvisit : Local visit) (reference : Value φ) :
    follow document policy visit policy.maxReferenceDepth reference = resolveReferenceValue reference document policy
        (visit (follow document policy visit policy.maxReferenceDepth)) := by
  funext state
  cases hdepth : policy.maxReferenceDepth with
  | zero =>
    have halike : Alike state.activeReferences
        (resolveReferenceValue reference document policy fun _ => throw (.referenceDepthExceeded policy.maxReferenceDepth))
        (resolveReferenceValue reference document policy (visit (follow document policy visit 0))) :=
      .resolveReferenceValue fun hlt => by omega
    exact (halike state rfl).1
  | succ depth =>
    have halike : Alike state.activeReferences
        (resolveReferenceValue reference document policy (visit (follow document policy visit depth)))
        (resolveReferenceValue reference document policy (visit (follow document policy visit (depth + 1)))) :=
      .resolveReferenceValue fun _ pointer target => hvisit (fun reference =>
        follow_alike hvisit depth (depth + 1) (by rw [length_append, length_singleton]; omega)) target
    exact (halike state rfl).1

end References

/-! ### The schemas in a schema -/

/-- The keywords whose value is a schema or holds schemas, by how it does. -/
def keywordsOf : KeywordKind → List String
  | .schemaMap => ["$defs", "properties", "patternProperties", "dependentSchemas"]
  | .schemaArray => ["allOf", "anyOf", "oneOf", "prefixItems"]
  | .schemaOrArray => ["items"]
  | .schema => ["additionalItems", "additionalProperties", "contains", "propertyNames", "not", "if", "then", "else",
      "unevaluatedProperties", "unevaluatedItems", "contentSchema"]
  | .dependencies => ["dependencies"]
  | .data => []

/-- The keyword is one of the kind. -/
def OfKind (kind : KeywordKind) (keyword : List UInt8) : Prop := ∃ name ∈ keywordsOf kind, keyword = ascii name

theorem OfKind.keywordKind_eq {kind : KeywordKind} {keyword : List UInt8} (h : OfKind kind keyword) :
    keywordKind keyword = kind := by
  obtain ⟨name, hname, rfl⟩ := h
  revert name
  cases kind <;> decide

/-- The code's table and the list of keywords are the same. -/
theorem ofKind_keywordKind {keyword : List UInt8} (h : keywordKind keyword ≠ .data) :
    OfKind (keywordKind keyword) keyword := by
  have hlist : ∀ {names : List String}, (names.map ascii).contains keyword = true → ∃ name ∈ names, keyword = ascii name := by
    intro names hnames
    obtain ⟨name, hname, heq⟩ := mem_map.mp (contains_iff_mem.mp hnames)
    exact ⟨name, hname, heq.symm⟩
  unfold keywordKind at h ⊢
  split_ifs with hmap harray hitems hschema hdependencies
  · exact hlist hmap
  · exact hlist harray
  · exact ⟨_, mem_singleton_self _, beq_iff_eq.mp hitems⟩
  · exact hlist hschema
  · exact ⟨_, mem_singleton_self _, beq_iff_eq.mp hdependencies⟩
  · simp_all

/-- The schemas in the value of a keyword. -/
inductive SchemaIn (keyword : List UInt8) : Value φ → Value φ → Prop
  | entry {schemas : List (List UInt8 × Value φ)} {key : List UInt8} {schema : Value φ} :
      OfKind .schemaMap keyword → (key, schema) ∈ schemas → SchemaIn keyword (.object schemas) schema
  | item {schemas : List (Value φ)} {schema : Value φ} :
      OfKind .schemaArray keyword ∨ OfKind .schemaOrArray keyword → schema ∈ schemas →
        SchemaIn keyword (.array schemas) schema
  | schema {schema : Value φ} :
      OfKind .schema keyword ∨ OfKind .schemaOrArray keyword ∧ schema.isArray = false → SchemaIn keyword schema schema
  | dependency {schemas : List (List UInt8 × Value φ)} {key : List UInt8} {schema : Value φ} :
      OfKind .dependencies keyword → (key, schema) ∈ schemas → (schema.isObject || schema.isBoolean) = true →
        SchemaIn keyword (.object schemas) schema

inductive ChildSchema : Value φ → Value φ → Prop
  | member {members : List (List UInt8 × Value φ)} {keyword : List UInt8} {value schema : Value φ} :
      (keyword, value) ∈ members → SchemaIn keyword value schema → ChildSchema (.object members) schema

theorem sizeOf_lt_of_entry {members : List (List UInt8 × Value φ)} {key : List UInt8} {v : Value φ}
    (h : (key, v) ∈ members) : sizeOf v < sizeOf (Value.object members) := by
  have hmem := sizeOf_lt_of_mem h
  simp only [Prod.mk.sizeOf_spec, Value.object.sizeOf_spec] at hmem ⊢
  omega

theorem SchemaIn.sizeOf_le {keyword : List UInt8} {value schema : Value φ} (h : SchemaIn keyword value schema) :
    sizeOf schema ≤ sizeOf value := by
  cases h with
  | entry _ hmem | dependency _ hmem => exact (sizeOf_lt_of_entry hmem).le
  | item _ hmem =>
    have hlt := sizeOf_lt_of_mem hmem
    simp only [Value.array.sizeOf_spec]
    omega
  | schema => exact le_rfl

theorem ChildSchema.sizeOf_lt {v w : Value φ} (h : ChildSchema v w) : sizeOf w < sizeOf v := by
  obtain ⟨hmem, hin⟩ := h
  exact hin.sizeOf_le.trans_lt (sizeOf_lt_of_entry hmem)

/-- **Induction over the schemas of a document.** -/
theorem schemaInduct {P : Value φ → Prop} (h : ∀ v, (∀ w, ChildSchema v w → P w) → P v) (v : Value φ) : P v := by
  induction hsize : sizeOf v using Nat.strongRecOn generalizing v with
  | _ size ih => exact h v fun w hchild => ih (sizeOf w) (hsize ▸ hchild.sizeOf_lt) w rfl

/-! ### One schema -/

namespace Pass

variable {t t' : Pass φ} {active : List (List UInt8)} {keyword context : List UInt8}

/-- One value of `dependencies`. -/
def dependency (t : Pass φ) (value : Value φ) : Traverse Unit :=
  if value.isObject || value.isBoolean then t.schemaAt (ascii "dependencies") value
  else if !value.isArray then
    throw (invalidSchemaShape (ascii "dependencies") "a schema object, boolean, or array" value)
  else t.data value

theorem items_eq : ∀ schemas : List (Value φ), t.items keyword schemas = inTurn (schemas.map (t.schemaAt keyword))
  | [] => rfl
  | schema :: schemas => by
    rw [items, items_eq schemas]
    rfl

theorem entries_eq : ∀ schemas : List (List UInt8 × Value φ),
    t.entries keyword schemas = inTurn (schemas.map fun e => t.schemaAt keyword e.2)
  | [] => rfl
  | (_, schema) :: schemas => by
    rw [entries, entries_eq schemas]
    rfl

theorem dependencies_eq : ∀ schemas : List (List UInt8 × Value φ),
    t.dependencies schemas = inTurn (schemas.map fun e => t.dependency e.2)
  | [] => rfl
  | (_, schema) :: schemas => by
    rw [dependencies, dependencies_eq schemas]
    rfl

theorem members_eq : ∀ object : List (List UInt8 × Value φ),
    t.members object = inTurn (object.map fun e => t.atKeyword e.1 e.2)
  | [] => rfl
  | (keyword, value) :: object => by
    rw [members_cons, members_eq object]
    rfl

/-- What the two passes do where they come is alike. -/
structure AlikeAt (active : List (List UInt8)) (t t' : Pass φ) : Prop where
  schema : Alike active t.schema t'.schema
  container : Alike active t.container t'.container
  data : ∀ value, Alike active (t.data value) (t'.data value)
  reference : ∀ reference, Alike active (t.reference reference) (t'.reference reference)

variable {value : Value φ}

section

variable (h : AlikeAt active t t')
include h

theorem AlikeAt.dependency (hvalue : (value.isObject || value.isBoolean) = true →
      Alike active (t.schemaAt (ascii "dependencies") value) (t'.schemaAt (ascii "dependencies") value)) :
    Alike active (t.dependency value) (t'.dependency value) := by
  unfold Pass.dependency
  split_ifs with hschema
  · exact hvalue hschema
  · exact .throw _
  · exact h.data value

theorem AlikeAt.atKeyword (ih : ∀ schema, SchemaIn keyword value schema → ∀ context,
      Alike active (t.schemaAt context schema) (t'.schemaAt context schema)) :
    Alike active (t.atKeyword keyword value) (t'.atKeyword keyword value) := by
  unfold Pass.atKeyword
  have hkind := @ofKind_keywordKind keyword
  generalize keywordKind keyword = kind at hkind
  cases kind with
  | schemaMap =>
    cases value with
    | object schemas =>
      refine h.container.bind fun _ => ?_
      rw [entries_eq, entries_eq]
      exact .inTurn fun e he => ih e.2 (.entry (hkind (by decide)) he) keyword
    | _ => exact .throw _
  | schemaArray =>
    cases value with
    | array schemas =>
      refine h.container.bind fun _ => ?_
      rw [items_eq, items_eq]
      exact .inTurn fun schema hmem => ih schema (.item (.inl (hkind (by decide))) hmem) keyword
    | _ => exact .throw _
  | schemaOrArray =>
    cases value with
    | array schemas =>
      refine h.container.bind fun _ => ?_
      rw [items_eq, items_eq]
      exact .inTurn fun schema hmem => ih schema (.item (.inr (hkind (by decide))) hmem) keyword
    | _ => exact ih _ (.schema (.inr ⟨hkind (by decide), rfl⟩)) keyword
  | schema => exact ih value (.schema (.inl (hkind (by decide)))) keyword
  | dependencies =>
    cases value with
    | object schemas =>
      refine h.container.bind fun _ => ?_
      rw [dependencies_eq, dependencies_eq]
      exact .inTurn fun e he => h.dependency fun hschema => ih e.2 (.dependency (hkind (by decide)) he hschema) _
    | _ => exact .throw _
  | data => exact h.data value

theorem AlikeAt.atReference (object : List (List UInt8 × Value φ)) :
    Alike active (t.atReference object) (t'.atReference object) := by
  unfold Pass.atReference
  cases object.lookup refKeyword with
  | none => exact .pure ()
  | some reference => exact h.reference reference

theorem AlikeAt.schemaAt (schema : Value φ) :
    ∀ context, Alike active (t.schemaAt context schema) (t'.schemaAt context schema) := by
  refine schemaInduct (P := fun schema => ∀ context,
    Alike active (t.schemaAt context schema) (t'.schemaAt context schema)) ?_ schema
  intro schema ih context
  cases schema with
  | object object =>
    rw [Pass.schemaAt, Pass.schemaAt, members_eq, members_eq]
    refine h.schema.bind fun _ => (Alike.lift _).bind fun _ => (h.atReference object).bind fun _ => ?_
    exact .inTurn fun e he => h.atKeyword fun schema hin context => ih schema (.member he hin) context
  | bool b => exact h.schema
  | _ => exact h.schema.bind fun _ => .throw _

end

theorem succeeds_of_atKeyword (h : AlikeAt active t t) {schema : Value φ} (hin : SchemaIn keyword value schema)
    (hsucceeds : Succeeds active (t.atKeyword keyword value)) : ∃ context, Succeeds active (t.schemaAt context schema) := by
  unfold Pass.atKeyword at hsucceeds
  cases hin with
  | entry hkind hmem =>
    rw [hkind.keywordKind_eq] at hsucceeds
    obtain ⟨-, -, hentries⟩ := hsucceeds.of_bind h.container
    rw [entries_eq] at hentries
    exact ⟨_, hentries.of_inTurn (fun e _ => h.schemaAt e.2 _) _ hmem⟩
  | item hkind hmem =>
    obtain hkind | hkind := hkind
    all_goals
      rw [hkind.keywordKind_eq] at hsucceeds
      obtain ⟨-, -, hitems⟩ := hsucceeds.of_bind h.container
      rw [items_eq] at hitems
      exact ⟨_, hitems.of_inTurn (fun schema _ => h.schemaAt schema _) _ hmem⟩
  | schema hkind =>
    obtain hkind | ⟨hkind, harray⟩ := hkind
    · rw [hkind.keywordKind_eq] at hsucceeds
      exact ⟨_, hsucceeds⟩
    · rw [hkind.keywordKind_eq] at hsucceeds
      refine ⟨keyword, ?_⟩
      dsimp only [schemaOrArray] at hsucceeds
      rwa [if_neg (Bool.eq_false_iff.mp harray)] at hsucceeds
  | dependency hkind hmem hschema =>
    rw [hkind.keywordKind_eq] at hsucceeds
    obtain ⟨-, -, hdependencies⟩ := hsucceeds.of_bind h.container
    rw [dependencies_eq] at hdependencies
    have hvisited := hdependencies.of_inTurn (fun e _ => h.dependency fun _ => h.schemaAt e.2 _) _ hmem
    unfold dependency at hvisited
    rw [if_pos hschema] at hvisited
    exact ⟨_, hvisited⟩

theorem succeeds_of_schemaAt (h : AlikeAt active t t) {object : List (List UInt8 × Value φ)}
    (hsucceeds : Succeeds active (t.schemaAt context (.object object))) :
    (∀ reference, object.lookup refKeyword = some reference → Succeeds active (t.reference reference)) ∧
      ∀ schema, ChildSchema (.object object) schema → ∃ context, Succeeds active (t.schemaAt context schema) := by
  rw [Pass.schemaAt, members_eq] at hsucceeds
  obtain ⟨-, -, hsucceeds⟩ := hsucceeds.of_bind h.schema
  obtain ⟨-, -, hsucceeds⟩ := hsucceeds.of_bind (.lift _)
  obtain ⟨hreference, -, hmembers⟩ := hsucceeds.of_bind (h.atReference object)
  constructor
  · intro reference hlookup
    rwa [Pass.atReference, hlookup] at hreference
  · rintro schema ⟨hmem, hin⟩
    have hkeeps : ∀ e ∈ object, Keeps active (t.atKeyword e.1 e.2) := fun e _ =>
      h.atKeyword fun schema _ context => h.schemaAt schema context
    exact succeeds_of_atKeyword h hin (hmembers.of_inTurn hkeeps _ hmem)

end Pass

/-! ### The traversals of the source -/

section Traversals

variable {policy : SchemaDialectPolicy} {active : List (List UInt8)}

theorem keeps_countNode : Keeps active (countNode policy) := by
  rintro state rfl
  refine ⟨rfl, fun result state' h => ?_⟩
  dsimp only [countNode] at h
  split_ifs at h
  obtain ⟨-, rfl⟩ := Prod.mk.inj (Except.ok.inj h)
  rfl

theorem keeps_countReferenceGraphNode : Keeps active (countReferenceGraphNode policy) := by
  rintro state rfl
  refine ⟨rfl, fun result state' h => ?_⟩
  dsimp only [countReferenceGraphNode] at h
  split_ifs at h
  obtain ⟨-, rfl⟩ := Prod.mk.inj (Except.ok.inj h)
  rfl

mutual

theorem keeps_traverseData : ∀ value : Value φ, Keeps active (traverseData policy value)
  | .object object => keeps_countNode.bind fun _ => keeps_traverseDataMembers object
  | .array values => keeps_countNode.bind fun _ => keeps_traverseDataItems values
  | .null | .bool _ | .number _ | .string _ => keeps_countNode

theorem keeps_traverseDataItems : ∀ values : List (Value φ), Keeps active (traverseDataItems policy values)
  | [] => .pure ()
  | value :: values => (keeps_traverseData value).bind fun _ => keeps_traverseDataItems values

theorem keeps_traverseDataMembers : ∀ members : List (List UInt8 × Value φ),
    Keeps active (traverseDataMembers policy members)
  | [] => .pure ()
  | (_, value) :: members => (keeps_traverseData value).bind fun _ => keeps_traverseDataMembers members

end

theorem alikeAt_referenceGraphPass {f g : Value φ → Traverse Unit}
    (h : ∀ reference, Alike active (f reference) (g reference)) :
    Pass.AlikeAt active (referenceGraphPass policy f) (referenceGraphPass policy g) :=
  ⟨keeps_countReferenceGraphNode, .pure (), fun _ => .pure (), h⟩

theorem local_visitReferenceGraph : Local (φ := φ) (visitReferenceGraph policy) :=
  fun h schema => (alikeAt_referenceGraphPass h).schemaAt schema rootContext

theorem local_visitRoot : Local (φ := φ) (visitRoot policy) := by
  intro active f g h schema
  refine (Alike.lift _).bind fun _ => ?_
  cases schema.asObject.bind (List.lookup refKeyword) with
  | none => exact .pure schema
  | some target => exact h target

variable (document : Value φ)

theorem validateReferenceGraph_eq (reference : Value φ) : validateReferenceGraph reference document policy =
      resolveReferenceValue reference document policy fun resolved =>
        traverseReferenceGraphSchema resolved document policy :=
  follow_eq local_visitReferenceGraph reference

theorem resolveRoot_eq (schema : Value φ) : resolveRoot schema document policy =
      visitRoot policy (fun reference => resolveReferenceValue reference document policy fun resolved =>
        resolveRoot resolved document policy) schema := by
  unfold resolveRoot
  congr 1
  funext reference
  exact follow_eq local_visitRoot reference

theorem keeps_resolveRoot (schema : Value φ) : Keeps active (resolveRoot schema document policy) :=
  local_visitRoot (fun _ => follow_alike local_visitRoot _ _ (.inl rfl)) schema

theorem alikeAt_schemaPass : Pass.AlikeAt active (schemaPass document policy) (schemaPass document policy) :=
  ⟨keeps_countNode, keeps_countNode, keeps_traverseData,
    fun _ => follow_alike local_visitReferenceGraph _ _ (.inl rfl)⟩

end Traversals

/-! ### Unfolding -/

/-- The reference of a schema. -/
def referenceOf (schema : Value φ) : Option (Value φ) := schema.asObject.bind (List.lookup refKeyword)

/-- The reference is a text `#/$defs/…`, and leads to this value of the document. -/
def LeadsTo (document reference target : Value φ) : Prop :=
  ∃ encodedPath decodedPath, reference = .string (referenceStart ++ encodedPath) ∧
    decodeUriFragment encodedPath = some decodedPath ∧ document.pointer (pointerStart ++ decodedPath) = some target

theorem LeadsTo.unique {document reference target target' : Value φ} (h : LeadsTo document reference target)
    (h' : LeadsTo document reference target') : target = target' := by
  obtain ⟨encodedPath, decodedPath, rfl, hdecoded, htarget⟩ := h
  obtain ⟨encodedPath', decodedPath', hreference, hdecoded', htarget'⟩ := h'
  obtain rfl := append_cancel_left (Value.string.inj hreference)
  obtain rfl := Option.some.inj (hdecoded.symm.trans hdecoded')
  exact Option.some.inj (htarget.symm.trans htarget')

def schemaUnfolding (document : Value φ) : Unfolding (Value φ) where
  child := ChildSchema
  refers := fun schema target => ∃ reference, referenceOf schema = some reference ∧ LeadsTo document reference target

/-- Its reference, if it has one, leads to a value inside the document. -/
def ReferenceLeads (document schema : Value φ) : Prop :=
  ∀ reference, referenceOf schema = some reference → ∃ target, LeadsTo document reference target ∧ target.Inside document

section Unfold

variable {document : Value φ} {policy : SchemaDialectPolicy} {active : List (List UInt8)}

theorem localReferencePointer_eq_ok {reference pointer : List UInt8}
    (h : localReferencePointer reference policy = .ok pointer) :
    ∃ encodedPath decodedPath, reference = referenceStart ++ encodedPath ∧
      decodeUriFragment encodedPath = some decodedPath ∧ pointer = pointerStart ++ decodedPath := by
  unfold localReferencePointer at h
  split_ifs at h with hbytes hstart
  obtain ⟨encodedPath, rfl⟩ := List.isPrefixOf_iff_prefix.mp hstart
  rw [drop_left] at h
  cases hdecoded : decodeUriFragment encodedPath with
  | none => rw [hdecoded] at h; cases h
  | some decodedPath =>
    rw [hdecoded] at h
    dsimp only at h
    split_ifs at h
    exact ⟨encodedPath, decodedPath, rfl, hdecoded, (Except.ok.inj h).symm⟩

theorem Succeeds.of_visitActive {x : Traverse τ} {pointer : List UInt8} (h : Succeeds active (visitActive pointer x)) :
    Succeeds (active ++ [pointer]) x := by
  obtain ⟨state, result, state', rfl, h⟩ := h
  unfold visitActive at h
  cases hx : x { state with activeReferences := state.activeReferences ++ [pointer] } with
  | error e => rw [hx] at h; cases h
  | ok p => exact ⟨_, p.1, p.2, rfl, hx⟩

theorem Succeeds.of_resolveReferenceValue {reference : Value φ} {visit : Value φ → Traverse τ}
    (h : Succeeds active (resolveReferenceValue reference document policy visit)) :
    ∃ pointer target, LeadsTo document reference target ∧ target.Inside document ∧
      active.length < policy.maxReferenceDepth ∧ Succeeds (active ++ [pointer]) (visit target) := by
  unfold resolveReferenceValue at h
  cases reference with
  | string text =>
    obtain ⟨state, result, state', rfl, h⟩ := h
    dsimp only [Value.asString, resolveReference] at h
    cases hpointer : localReferencePointer text policy with
    | error e => rw [hpointer] at h; cases h
    | ok pointer =>
      rw [hpointer] at h
      dsimp only at h
      split_ifs at h with hdepth hactive
      cases htarget : document.pointer pointer with
      | none => rw [htarget] at h; cases h
      | some target =>
        rw [htarget] at h
        have hvisit : Succeeds state.activeReferences (visitActive pointer (visit target)) :=
          ⟨state, result, state', rfl, h⟩
        obtain ⟨encodedPath, decodedPath, rfl, hdecoded, rfl⟩ := localReferencePointer_eq_ok hpointer
        exact ⟨_, target, ⟨encodedPath, decodedPath, rfl, hdecoded, htarget⟩, Value.inside_of_pointer htarget,
          not_le.mp hdepth, hvisit.of_visitActive⟩
  | _ => exact absurd h not_succeeds_throw

/-- If what is behind every reference that was followed ends, the whole unfolding does. -/
theorem ends_of_references {t : Pass φ} (h : Pass.AlikeAt active t t)
    (hreference : ∀ reference, Succeeds active (t.reference reference) → ∃ target, LeadsTo document reference target ∧
      target.Inside document ∧ active.length < policy.maxReferenceDepth ∧
      (schemaUnfolding document).Ends (ReferenceLeads document) (policy.maxReferenceDepth - active.length - 1) target)
    (schema : Value φ) : ∀ {context : List UInt8}, Succeeds active (t.schemaAt context schema) →
      (schemaUnfolding document).Ends (ReferenceLeads document) (policy.maxReferenceDepth - active.length) schema := by
  refine schemaInduct (P := fun schema => ∀ {context : List UInt8}, Succeeds active (t.schemaAt context schema) →
    (schemaUnfolding document).Ends (ReferenceLeads document) (policy.maxReferenceDepth - active.length) schema)
    ?_ schema
  intro schema ih context hsucceeds
  cases schema with
  | object object =>
    obtain ⟨hfollowed, hchildren⟩ := Pass.succeeds_of_schemaAt h hsucceeds
    refine .intro ?_ ?_ ?_ ?_
    · intro reference hlookup
      obtain ⟨target, hleads, hinside, -⟩ := hreference reference (hfollowed reference hlookup)
      exact ⟨target, hleads, hinside⟩
    · intro child hchild
      obtain ⟨context, hvisited⟩ := hchildren child hchild
      exact ih child hchild hvisited
    · rintro target ⟨reference, hlookup, -⟩
      obtain ⟨-, -, -, hlt, -⟩ := hreference reference (hfollowed reference hlookup)
      omega
    · rintro target ⟨reference, hlookup, hleads⟩
      obtain ⟨target', hleads', -, -, hends⟩ := hreference reference (hfollowed reference hlookup)
      rwa [hleads.unique hleads']
  | _ =>
    refine .intro ?_ ?_ ?_ ?_
    · rintro reference ⟨⟩
    · rintro child ⟨⟩
    · rintro target ⟨reference, ⟨⟩, -⟩
    · rintro target ⟨reference, ⟨⟩, -⟩

/-- **A successful traversal has gone through the whole unfolding.**  The induction is on the depth to
which references are followed. -/
theorem ends_of_succeeds : ∀ (depth : ℕ) {active : List (List UInt8)} {t : Pass φ}, Pass.AlikeAt active t t →
    t.reference = follow document policy (visitReferenceGraph policy) depth → ∀ (schema : Value φ) {context : List UInt8},
    Succeeds active (t.schemaAt context schema) →
      (schemaUnfolding document).Ends (ReferenceLeads document) (policy.maxReferenceDepth - active.length) schema
  | 0, active, t, h, ht, schema, _, hsucceeds => by
    refine ends_of_references h (fun reference hfollowed => ?_) schema hsucceeds
    rw [ht] at hfollowed
    obtain ⟨pointer, target, -, -, -, hvisited⟩ := hfollowed.of_resolveReferenceValue
    exact absurd hvisited not_succeeds_throw
  | depth + 1, active, t, h, ht, schema, _, hsucceeds => by
    refine ends_of_references h (fun reference hfollowed => ?_) schema hsucceeds
    rw [ht] at hfollowed
    obtain ⟨pointer, target, hleads, hinside, hlt, hvisited⟩ := hfollowed.of_resolveReferenceValue
    refine ⟨target, hleads, hinside, hlt, ?_⟩
    have hpass : Pass.AlikeAt (active ++ [pointer]) (referenceGraphPass policy
        (follow document policy (visitReferenceGraph policy) depth)) (referenceGraphPass policy _) :=
      alikeAt_referenceGraphPass fun reference => follow_alike local_visitReferenceGraph _ _ (.inl rfl)
    have hends := ends_of_succeeds depth hpass rfl target hvisited
    rwa [length_append] at hends

variable {fmt : FloatFormat φ}

theorem ends_of_validateSchemaDialect (h : validateSchemaDialect fmt document policy = .ok ()) :
    (schemaUnfolding document).Ends (ReferenceLeads document) policy.maxReferenceDepth document := by
  unfold validateSchemaDialect at h
  cases hpreflight : preflightSchemaInput fmt policy document with
  | error e => rw [hpreflight] at h; cases h
  | ok budget =>
    rw [hpreflight] at h
    dsimp only [bind, Except.bind] at h
    split_ifs at h
    cases hroot : resolveRoot document document policy .initial with
    | error e => rw [hroot] at h; cases h
    | ok root =>
      rw [hroot] at h
      dsimp only at h
      cases htraverse : traverseSchema document document policy root.2 with
      | error e => rw [htraverse] at h; cases h
      | ok result =>
        have hactive := (keeps_resolveRoot document document .initial rfl).2 root.1 root.2 hroot
        exact ends_of_succeeds policy.maxReferenceDepth (alikeAt_schemaPass document) rfl document
          ⟨root.2, result.1, result.2, hactive, htraverse⟩

end Unfold

/-- **The references of an accepted schema are well founded.**  In a document that is accepted, under
whatever limits, take any schema that unfolding reaches from the root.  Its reference, if it has
one, is of the form `#/$defs/…` and leads to a value inside the document; unfolding it ends; on no
way from it are more references followed than `max_reference_depth`, and no way with a reference
comes back to it. -/
theorem validateSchemaDialect_wellFounded (fmt : FloatFormat φ) (document : Value φ) (policy : SchemaDialectPolicy)
    (haccepted : validateSchemaDialect fmt document policy = .ok ()) (schema : Value φ) (n : ℕ)
    (hreached : (schemaUnfolding document).Path n document schema) :
    ReferenceLeads document schema ∧ Acc (fun target source => (schemaUnfolding document).Step source target) schema ∧
      (∀ (k : ℕ) (target : Value φ), (schemaUnfolding document).Path k schema target → k ≤ policy.maxReferenceDepth) ∧
      ∀ k : ℕ, ¬(schemaUnfolding document).Path (k + 1) schema schema := by
  obtain ⟨-, hends⟩ := (ends_of_validateSchemaDialect haccepted).of_path hreached
  refine ⟨hends.holds, hends.acc, fun k target hpath => ?_, fun k => hends.not_path_self⟩
  exact (hends.of_path hpath).1.trans (Nat.sub_le _ _)

/-- A list of users, whose names are described elsewhere. -/
def userListSchema : Value (Fin 0) :=
  .object [
    (ascii "$defs", .object [
      (ascii "name", .object [(ascii "type", .string (ascii "string"))]),
      (ascii "user", .object [(ascii "$ref", .string (ascii "#/$defs/name"))])]),
    (ascii "items", .object [(ascii "$ref", .string (ascii "#/$defs/user"))]),
    (ascii "type", .string (ascii "object"))]

def noFloats : FloatFormat (Fin 0) := ⟨fun x => x.elim0, fun x => x.elim0, fun x => x.elim0, fun x => x.elim0⟩

theorem validateSchemaDialect_wellFounded_userList :
    (∃ target, LeadsTo userListSchema (.string (ascii "#/$defs/user")) target ∧ target.Inside userListSchema) ∧
      Acc (fun target source => (schemaUnfolding userListSchema).Step source target) userListSchema := by
  have haccepted : validateSchemaDialect noFloats userListSchema .new = .ok () := by decide +kernel
  have hitems : (schemaUnfolding userListSchema).Path 0 userListSchema
      (.object [(ascii "$ref", .string (ascii "#/$defs/user"))]) :=
    .child (.member (.tail _ (.head _)) (.schema (.inr ⟨⟨"items", by decide, rfl⟩, rfl⟩))) (.refl _)
  refine ⟨?_, ?_⟩
  · exact (validateSchemaDialect_wellFounded noFloats _ .new haccepted _ 0 hitems).1 _ rfl
  · exact (validateSchemaDialect_wellFounded noFloats _ .new haccepted _ 0 (.refl _)).2.1

end McpToolkit.Core.ToolSchema

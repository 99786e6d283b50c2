import Simplex.Json.Writer
import Simplex.Proofs.Addition
import Simplex.Proofs.Basic
import Simplex.Proofs.Number.Rounding
/-! Which documents describe a program. The schema is a list of checks in a fixed order,
    and a document is judged by the first of them that it fails; one that fails none says
    all that a program is made of. -/

namespace Simplex

namespace Value

/-- Does the value have a member of that name? -/
def has (v : Value) (name : String) : Bool := (v.get? name).isSome

/-- The member of that name. -/
def member (v : Value) (name : String) : Value := (v.get? name).getD .null

def isNull : Value → Bool
  | .null => true
  | _ => false

def isObject : Value → Bool
  | .object _ => true
  | _ => false

def isArray : Value → Bool
  | .array _ => true
  | _ => false

def items : Value → List Value
  | .array vs => vs
  | _ => []

def isText : Value → Bool
  | .string _ => true
  | _ => false

def text : Value → Text
  | .string t => t
  | _ => []

/-- Is the text one of the words? -/
def isOneOf (words : List String) (v : Value) : Bool := words.any fun w => Text.ofString w = v.text

/-- Is the value a number? Truth values are none, nor are integers without a double. -/
def isNumber : Value → Bool
  | .int n => n.natAbs < Binary.overflow
  | .float _ => true
  | _ => false

/-- The double of a number. -/
def double : Value → Float
  | .int n => Binary.nearest (decide (n < 0)) n.natAbs 1
  | .float x => x
  | _ => 0

theorem get?_eq (v : Value) (name : String) :
    v.get? name = if v.has name then some (v.member name) else none := by
  rw [has, member]
  cases v.get? name <;> rfl

end Value

/-- A check of a document, the fault of a document that fails it, and the
    message that tells of it. -/
structure Check (ε : Type) where
  passed : Bool
  fault : ε
  message : String

namespace Check
variable {α β ε ε' : Type}

/-- The first check that is not passed. -/
def firstFailed (cs : List (Check ε)) : Option (Check ε) := cs.find? fun c => !c.passed

/-- A result under checks. -/
def guarded (cs : List (Check ε)) (a : α) : Except ε α :=
  match firstFailed cs with
  | none => .ok a
  | some c => .error c.fault

@[simp] theorem guarded_nil (a : α) : guarded ([] : List (Check ε)) a = .ok a := rfl

@[simp] theorem guarded_cons (c : Check ε) (cs : List (Check ε)) (a : α) :
    guarded (c :: cs) a = if c.passed then guarded cs a else .error c.fault := by
  by_cases hc : c.passed <;> simp [guarded, firstFailed, hc]

/-- Checks one after the other. -/
theorem guarded_bind {cs ds : List (Check ε)} {a : α} {b : β} {f : α → Except ε β}
    (h : f a = guarded ds b) : guarded cs a >>= f = guarded (cs ++ ds) b := by
  induction cs with
  | nil => exact h
  | cons c cs ih =>
    rw [List.cons_append, guarded_cons, guarded_cons, ← ih]
    split_ifs <;> rfl

theorem guarded_bind_ok (cs : List (Check ε)) (a : α) (f : α → β) :
    (guarded cs a >>= fun a => .ok (f a)) = guarded cs (f a) := by
  rw [guarded_bind (f := fun a => Except.ok (f a)) (guarded_nil (f a)).symm, List.append_nil]

/-- Checks of the same kind, of which the first that fails is looked for. -/
theorem guarded_map_append {γ : Type} (xs : List γ) (missing : γ → Bool) (fault : γ → ε)
    (message : γ → String) (cs : List (Check ε)) (a : α) :
    guarded ((xs.map fun x => ⟨!missing x, fault x, message x⟩) ++ cs) a =
      match xs.find? missing with
      | some x => .error (fault x)
      | none => guarded cs a := by
  induction xs with
  | nil => rfl
  | cons x xs ih =>
    rw [List.map_cons, List.cons_append, guarded_cons, ih]
    cases h : missing x <;> simp [h]

/-- Checks of a part, whose faults say where the part is. -/
theorem guarded_map (g : ε → ε') (cs : List (Check ε)) (a : α) :
    guarded (cs.map fun c => ⟨c.passed, g c.fault, c.message⟩) a = (guarded cs a).mapError g := by
  induction cs with
  | nil => rfl
  | cons c cs ih =>
    rw [List.map_cons, guarded_cons, guarded_cons, ih]
    split_ifs <;> rfl

theorem firstFailed_eq_none_iff {cs : List (Check ε)} :
    firstFailed cs = none ↔ ∀ c ∈ cs, c.passed = true := by
  simp [firstFailed]

end Check

namespace Decode

def objectiveWords : List String := ["minimize", "maximize"]

def relationWords : List String := ["=", "<=", ">="]

def restrictionWords : List String := ["non-negative", "unrestricted"]

/-- The objective that a valid word names. -/
def objectiveOf (v : Value) : Objective :=
  if v.text = Text.ofString "minimize" then .minimize else .maximize

/-- The relation that a valid word names. -/
def relationOf (v : Value) : Relation :=
  if v.text = Text.ofString "=" then .equal
  else if v.text = Text.ofString "<=" then .lessEqual else .greaterEqual

/-- The restriction that a valid word names. -/
def restrictionOf (v : Value) : Restriction :=
  if v.text = Text.ofString "non-negative" then .nonNegative else .unrestricted

/-- The checks of one constraint over `n` variables, which is at position `i`. -/
def constraintChecks (n i : ℕ) (v : Value) : List (Check ConstraintFault) :=
  [⟨!v.isNull, .isNull, s!"Constraint at index {i} is null"⟩,
    ⟨v.isObject, .notAnObject, s!"Constraint at index {i} is not an object"⟩,
    ⟨v.has "type", .typeMissing, s!"Missing type in constraint at index {i}"⟩,
    ⟨(v.member "type").isText, .typeNotAString,
      s!"Type in constraint at index {i} is not a string"⟩,
    ⟨(v.member "type").isOneOf relationWords, .typeInvalid,
      s!"Invalid type in constraint at index {i}"⟩,
    ⟨v.has "value", .valueMissing, s!"Missing value in constraint at index {i}"⟩,
    ⟨(v.member "value").isNumber, .valueNotANumber,
      s!"Value in constraint at index {i} is not a number"⟩,
    ⟨v.has "coefficients", .coefficientsMissing,
      s!"Missing coefficients in constraint at index {i}"⟩,
    ⟨(v.member "coefficients").isArray, .coefficientsNotAnArray,
      s!"Coefficients in constraint at index {i} is not an array"⟩,
    ⟨(v.member "coefficients").items.all Value.isNumber, .coefficientsNotNumbers,
      s!"Some coefficients in constraint at index {i} are not numbers"⟩,
    ⟨(v.member "coefficients").items.length = n, .coefficientCount,
      s!"Constraint at index {i} has different number of coefficients"⟩]

/-- What a constraint that passes its checks says. -/
def constraintOf (v : Value) : Relation × Float × List Float :=
  (relationOf (v.member "type"), (v.member "value").double,
    (v.member "coefficients").items.map Value.double)

/-- The checks of the constraints from position `i` on, one constraint after the other. -/
def constraintsChecks (n : ℕ) (i : ℕ) (vs : List Value) : List (Check DocumentFault) :=
  (vs.zipIdx i).flatMap fun (v, i) =>
    (constraintChecks n i v).map fun c => ⟨c.passed, .constraint i c.fault, c.message⟩

/-- The checks for the fields that a document has to have. -/
def fieldChecks (v : Value) : List (Check DocumentFault) :=
  [⟨v.has "objectiveType", .missing .objective, "Missing objective type"⟩,
    ⟨v.has "coefficients", .missing .coefficients, "Missing coefficients"⟩,
    ⟨v.has "restrictions", .missing .restrictions, "Missing restrictions"⟩,
    ⟨v.has "constraints", .missing .constraints, "Missing constraints"⟩,
    ⟨v.has "constant", .missing .constant, "Missing constant"⟩]

def objectiveChecks (v : Value) : List (Check DocumentFault) :=
  [⟨v.isText, .objectiveNotAString, "Objective type is not a string"⟩,
    ⟨v.isOneOf objectiveWords, .objectiveInvalid, "Invalid objective type"⟩]

def coefficientsChecks (v : Value) : List (Check DocumentFault) :=
  [⟨v.isArray, .coefficientsNotAnArray, "Coefficients is not an array"⟩,
    ⟨v.items.all Value.isNumber, .coefficientsNotNumbers, "Some coefficients are not numbers"⟩]

def restrictionsChecks (v : Value) : List (Check DocumentFault) :=
  [⟨v.isArray, .restrictionsNotAnArray, "Restrictions is not an array"⟩,
    ⟨v.items.all Value.isText, .restrictionsNotStrings, "Some restrictions are not strings"⟩,
    ⟨v.items.all (Value.isOneOf restrictionWords), .restrictionsInvalid,
      "Some restrictions are not valid"⟩]

/-- The checks of what the fields of a document hold. -/
def contentChecks (v : Value) : List (Check DocumentFault) :=
  objectiveChecks (v.member "objectiveType") ++ coefficientsChecks (v.member "coefficients") ++
  restrictionsChecks (v.member "restrictions") ++
  [⟨(v.member "coefficients").items.length = (v.member "restrictions").items.length,
    .restrictionCount, "Coefficients and restrictions have different lengths"⟩,
    ⟨(v.member "constraints").isArray, .constraintsNotAnArray, "Constraints is not an array"⟩] ++
  constraintsChecks (v.member "coefficients").items.length 0 (v.member "constraints").items ++
  [⟨(v.member "constant").isNumber, .constantNotANumber, "Constant is not a number"⟩]

/-- The checks of a document. -/
def documentChecks (v : Value) : List (Check DocumentFault) :=
  [⟨!v.isNull, .isNull, "Data is null"⟩, ⟨v.isObject, .notAnObject, "Data is not an object"⟩] ++
  fieldChecks v ++ contentChecks v

theorem message_constraintChecks (n i : ℕ) (v : Value) :
    ∀ c ∈ constraintChecks n i v, c.fault.message i = c.message := by
  repeat refine List.forall_mem_cons.2 ⟨rfl, ?_⟩
  exact List.forall_mem_nil _

theorem message_constraintsChecks (n i : ℕ) (vs : List Value) :
    ∀ c ∈ constraintsChecks n i vs, c.fault.message = c.message := by
  rintro c hc
  obtain ⟨⟨v, k⟩, -, hc⟩ := List.mem_flatMap.1 hc
  obtain ⟨check, hcheck, rfl⟩ := List.mem_map.1 hc
  exact message_constraintChecks n k v check hcheck

theorem fieldChecks_eq (v : Value) : fieldChecks v =
    Field.all.map fun f =>
      ⟨!(v.get? f.key).isNone, .missing f, (DocumentFault.missing f).message⟩ := by
  simp [fieldChecks, Field.all, Field.key, Value.has, DocumentFault.message, Field.label, toString]

/-- Every fault has the message of its check. -/
theorem message_documentChecks (v : Value) :
    ∀ c ∈ documentChecks v, c.fault.message = c.message := by
  have hfields : ∀ c ∈ fieldChecks v, c.fault.message = c.message := by
    rw [fieldChecks_eq]
    exact List.forall_mem_map.2 fun f _ => rfl
  have hobjective (w : Value) : ∀ c ∈ objectiveChecks w, c.fault.message = c.message := by
    simp [objectiveChecks, DocumentFault.message]
  have hcoefficients (w : Value) : ∀ c ∈ coefficientsChecks w, c.fault.message = c.message := by
    simp [coefficientsChecks, DocumentFault.message]
  have hrestrictions (w : Value) : ∀ c ∈ restrictionsChecks w, c.fault.message = c.message := by
    simp [restrictionsChecks, DocumentFault.message]
  intro c hc
  simp only [documentChecks, contentChecks, List.mem_append, or_assoc] at hc
  rcases hc with hc | hc | hc | hc | hc | hc | hc | hc
  · revert c
    simp [DocumentFault.message]
  · exact hfields c hc
  · exact hobjective _ c hc
  · exact hcoefficients _ c hc
  · exact hrestrictions _ c hc
  · revert c
    simp [DocumentFault.message]
  · exact message_constraintsChecks _ _ _ c hc
  · revert c
    simp [DocumentFault.message]

/-- What a document that passes its checks says. -/
def draftOf (v : Value) : Draft Float where
  objective := objectiveOf (v.member "objectiveType")
  unknowns := ((v.member "coefficients").items.map Value.double).zip
    ((v.member "restrictions").items.map restrictionOf)
  constraints := (v.member "constraints").items.map constraintOf
  constant := (v.member "constant").double

theorem number?_eq (v : Value) : number? v = if v.isNumber then some v.double else none := by
  cases v with
  | int n => simp [number?, finiteOfInt?_eq, Value.isNumber, Value.double]
  | float x => rfl
  | _ => rfl

theorem text?_eq (v : Value) : text? v = if v.isText then some v.text else none := by
  cases v <;> rfl

theorem ofText?_objective (v : Value) :
    Objective.ofText? v.text = if v.isOneOf objectiveWords then some (objectiveOf v) else none := by
  simp only [Objective.ofText?, Objective.word, Value.isOneOf, objectiveWords, List.any_cons,
    List.any_nil, Bool.or_false, Bool.or_eq_true, decide_eq_true_eq, objectiveOf]
  grind

theorem ofText?_relation (v : Value) :
    Relation.ofText? v.text = if v.isOneOf relationWords then some (relationOf v) else none := by
  simp only [Relation.ofText?, Relation.word, Value.isOneOf, relationWords, List.any_cons,
    List.any_nil, Bool.or_false, Bool.or_eq_true, decide_eq_true_eq, relationOf]
  grind

theorem ofText?_restriction (v : Value) :
    Restriction.ofText? v.text = if v.isOneOf restrictionWords then some (restrictionOf v)
      else none := by
  simp only [Restriction.ofText?, Restriction.word, Value.isOneOf, restrictionWords, List.any_cons,
    List.any_nil, Bool.or_false, Bool.or_eq_true, decide_eq_true_eq, restrictionOf]
  grind

open Check

theorem items_eq {α ε : Type} (notAnArray notAll : ε) (message message' : String)
    {of? : Value → Option α} {test : Value → Bool} {value : Value → α}
    (h : ∀ a, of? a = if test a then some (value a) else none) (v : Value) :
    items notAnArray notAll of? v =
      guarded [⟨v.isArray, notAnArray, message⟩, ⟨v.items.all test, notAll, message'⟩]
        (v.items.map value) := by
  cases v with
  | array vs =>
    rw [items, mapM_eq fun a _ => h a]
    simp only [guarded_cons, guarded_nil, Value.isArray, Value.items, if_true]
    split_ifs <;> rfl
  | _ => rfl

theorem require_eq {α ε : Type} (e : ε) (b : Bool) (a : α) :
    require e (if b then some a else none) = if b then .ok a else .error e := by
  cases b <;> rfl

theorem constraint_eq (n i : ℕ) (v : Value) :
    constraint n v = guarded (constraintChecks n i v) (constraintOf v) := by
  cases v with
  | object members =>
    rw [constraint, constraintChecks]
    simp only [Value.get?_eq, require_eq, ite_bind, ok_bind, throw_bind, text?_eq, number?_eq,
      ofText?_relation, items_eq _ _ "" "" number?_eq, guarded_cons, guarded_nil, Value.isNull,
      Value.isObject, Bool.not_false, if_true, List.length_map, ne_eq, ite_not, decide_eq_true_eq]
    rfl
  | _ => rfl

theorem constraints_eq (n i : ℕ) (vs : List Value) :
    constraints n i vs = guarded (constraintsChecks n i vs) (vs.map constraintOf) := by
  induction vs generalizing i with
  | nil => rfl
  | cons v vs ih =>
    rw [constraints, constraint_eq n i, ← guarded_map, ih]
    exact guarded_bind (guarded_bind_ok _ _ _)

theorem objective_eq (v : Value) :
    objective v = guarded (objectiveChecks v) (objectiveOf v) := by
  simp only [objective, objectiveChecks, text?_eq, require_eq, ite_bind, ok_bind, ofText?_objective,
    guarded_cons, guarded_nil]

theorem restrictions_eq (v : Value) :
    restrictions v = guarded (restrictionsChecks v) (v.items.map restrictionOf) := by
  have hwords : (v.items.map Value.text).mapM Restriction.ofText? =
      if v.items.all (Value.isOneOf restrictionWords) then some (v.items.map restrictionOf)
        else none := by
    rw [List.mapM_map]
    exact mapM_eq fun a _ => ofText?_restriction a
  simp only [restrictions, restrictionsChecks, items_eq _ _ "" "" text?_eq, hwords, require_eq,
    ite_bind, ok_bind, guarded_cons, guarded_nil]

theorem field_eq (v : Value) (f : Field) : field v f = v.member f.key := rfl

/-- A document is read by its checks. -/
theorem draft_eq (v : Value) : draft v = guarded (documentChecks v) (draftOf v) := by
  cases v with
  | object members =>
    rw [draft, documentChecks, fieldChecks_eq, List.append_assoc]
    change _ = guarded (_ ++ contentChecks (Value.object members)) _
    rw [guarded_map_append]
    generalize Value.object members = v
    -- a missing field ends both sides; without one, the parts are read in the order of their checks
    cases Field.all.find? fun f => (v.get? f.key).isNone with
    | some f => rfl
    | none =>
      simp only [field_eq, Field.key]
      rw [contentChecks]
      simp only [List.append_assoc]
      rw [objective_eq]
      refine guarded_bind ?_
      rw [items_eq _ _ _ _ number?_eq]
      refine guarded_bind ?_
      rw [restrictions_eq]
      refine guarded_bind ?_
      rw [List.cons_append, guarded_cons, draftOf]
      simp only [List.length_map, ne_eq, ite_not, decide_eq_true_eq]
      refine if_congr Iff.rfl ?_ rfl
      generalize v.member "constraints" = w
      cases w with
      | array vs =>
        dsimp only
        rw [constraints_eq]
        refine guarded_bind ?_
        rw [number?_eq, require_eq, ite_bind, ok_bind, guarded_cons]
        rfl
      | _ => rfl
  | _ => rfl

/-! ### The schema in words -/

/-- A constraint over `n` variables: a relation by its word, a number and as many coefficients. -/
structure ConstraintSchema (n : ℕ) (v : Value) : Prop where
  relation : ∃ r : Relation, v.get? "type" = some (.ofString r.word)
  value : ∃ b, v.get? "value" = some b ∧ b.isNumber
  coefficients : ∃ row, v.get? "coefficients" = some (.array row) ∧ (∀ a ∈ row, a.isNumber) ∧
    row.length = n

/-- The documents of programs. -/
structure Schema (v : Value) : Prop where
  objective : ∃ o : Objective, v.get? "objectiveType" = some (.ofString o.word)
  coefficients : ∃ costs, v.get? "coefficients" = some (.array costs) ∧ ∀ c ∈ costs, c.isNumber
  restrictions : ∃ words, v.get? "restrictions" = some (.array words) ∧
    (∀ w ∈ words, ∃ r : Restriction, w = .ofString r.word) ∧
    words.length = (v.member "coefficients").items.length
  constraints : ∃ cs, v.get? "constraints" = some (.array cs) ∧
    ∀ c ∈ cs, ConstraintSchema (v.member "coefficients").items.length c
  constant : ∃ a, v.get? "constant" = some a ∧ a.isNumber

theorem get?_eq_some_iff (v : Value) (name : String) (a : Value) :
    v.get? name = some a ↔ v.has name ∧ v.member name = a := by
  rw [Value.get?_eq]
  by_cases h : v.has name <;> simp [h]

theorem exists_get?_iff (v : Value) (name : String) (test : Value → Prop) :
    (∃ a, v.get? name = some a ∧ test a) ↔ v.has name ∧ test (v.member name) := by
  simp only [get?_eq_some_iff, and_assoc, exists_and_left, exists_eq_left']

theorem exists_array_iff (v : Value) (name : String) (test : List Value → Prop) :
    (∃ vs, v.get? name = some (.array vs) ∧ test vs) ↔
      v.has name ∧ (v.member name).isArray ∧ test (v.member name).items := by
  simp only [get?_eq_some_iff, and_assoc, exists_and_left]
  cases v.member name <;> simp [Value.isArray, Value.items]

theorem exists_word_iff {R : Type} (word : R → String) (all : List R) (hall : ∀ r, r ∈ all)
    (v : Value) :
    (∃ r, v = .ofString (word r)) ↔ v.isText ∧ v.isOneOf (all.map word) := by
  cases v with
  | string t =>
    simp only [Value.ofString, Value.string.injEq, Value.isText, Value.isOneOf, Value.text,
      List.any_map, List.any_eq_true, Function.comp_apply, true_and]
    exact exists_congr fun r =>
      ⟨fun h => ⟨hall r, decide_eq_true h.symm⟩, fun h => (of_decide_eq_true h.2).symm⟩
  | _ => simp [Value.ofString, Value.isText]

theorem isOneOf_objectiveWords (v : Value) :
    (∃ o : Objective, v = .ofString o.word) ↔ v.isText ∧ v.isOneOf objectiveWords :=
  exists_word_iff Objective.word [.minimize, .maximize] (by rintro (_ | _) <;> simp) v

theorem isOneOf_relationWords (v : Value) :
    (∃ r : Relation, v = .ofString r.word) ↔ v.isText ∧ v.isOneOf relationWords :=
  exists_word_iff Relation.word [.equal, .lessEqual, .greaterEqual]
    (by rintro (_ | _ | _) <;> simp) v

theorem isOneOf_restrictionWords (v : Value) :
    (∃ r : Restriction, v = .ofString r.word) ↔ v.isText ∧ v.isOneOf restrictionWords :=
  exists_word_iff Restriction.word [.nonNegative, .unrestricted] (by rintro (_ | _) <;> simp) v

/-- Only objects have members. -/
theorem isObject_of_has {v : Value} {name : String} (h : v.has name) :
    v.isNull = false ∧ v.isObject = true := by
  cases v with
  | object members => exact ⟨rfl, rfl⟩
  | _ => cases h

theorem constraintSchema_iff (n i : ℕ) (v : Value) :
    ConstraintSchema n v ↔ ∀ c ∈ constraintChecks n i v, c.passed = true := by
  have hfields : ConstraintSchema n v ↔ (∃ r : Relation, v.get? "type" = some (.ofString r.word)) ∧
      (∃ b, v.get? "value" = some b ∧ b.isNumber) ∧
      ∃ row, v.get? "coefficients" = some (.array row) ∧ (∀ a ∈ row, a.isNumber) ∧ row.length = n :=
    ⟨fun h => ⟨h.relation, h.value, h.coefficients⟩, fun h => ⟨h.1, h.2.1, h.2.2⟩⟩
  rw [hfields, exists_get?_iff, exists_array_iff]
  simp only [get?_eq_some_iff, exists_and_left, isOneOf_relationWords, constraintChecks,
    List.forall_mem_cons]
  simp only [Bool.not_eq_eq_eq_not, Bool.not_true, List.all_eq_true, decide_eq_true_eq,
    List.not_mem_nil, IsEmpty.forall_iff, implies_true, and_true]
  constructor
  · intro h
    have := isObject_of_has h.1.1
    tauto
  · tauto

theorem constraintsChecks_passed_iff (n i : ℕ) (vs : List Value) :
    (∀ c ∈ constraintsChecks n i vs, c.passed = true) ↔ ∀ v ∈ vs, ConstraintSchema n v := by
  induction vs generalizing i with
  | nil => simp [constraintsChecks]
  | cons v vs ih =>
    rw [constraintsChecks, List.zipIdx_cons, List.flatMap_cons, List.forall_mem_append,
      List.forall_mem_map, List.forall_mem_cons, ← ih (i + 1), constraintSchema_iff n i]
    rfl

theorem schema_iff (v : Value) : Schema v ↔ ∀ c ∈ documentChecks v, c.passed = true := by
  have hfields : Schema v ↔ (∃ o : Objective, v.get? "objectiveType" = some (.ofString o.word)) ∧
      (∃ costs, v.get? "coefficients" = some (.array costs) ∧ ∀ c ∈ costs, c.isNumber) ∧
      (∃ words, v.get? "restrictions" = some (.array words) ∧
        (∀ w ∈ words, ∃ r : Restriction, w = .ofString r.word) ∧
        words.length = (v.member "coefficients").items.length) ∧
      (∃ cs, v.get? "constraints" = some (.array cs) ∧
        ∀ c ∈ cs, ConstraintSchema (v.member "coefficients").items.length c) ∧
      ∃ a, v.get? "constant" = some a ∧ a.isNumber :=
    ⟨fun h => ⟨h.objective, h.coefficients, h.restrictions, h.constraints, h.constant⟩,
      fun h => ⟨h.1, h.2.1, h.2.2.1, h.2.2.2.1, h.2.2.2.2⟩⟩
  rw [hfields, exists_array_iff, exists_array_iff, exists_array_iff, exists_get?_iff,
    documentChecks, fieldChecks, contentChecks, objectiveChecks, coefficientsChecks,
    restrictionsChecks]
  simp only [get?_eq_some_iff, exists_and_left, isOneOf_objectiveWords, isOneOf_restrictionWords,
    List.forall_mem_append, List.forall_mem_cons, constraintsChecks_passed_iff]
  simp only [forall_and, Bool.not_eq_eq_eq_not, Bool.not_true, List.not_mem_nil, IsEmpty.forall_iff,
    implies_true, and_true, List.all_eq_true, decide_eq_true_eq]
  have hobject : v.has "objectiveType" → v.isNull = false ∧ v.isObject = true := isObject_of_has
  grind

theorem schema_iff_firstFailed (v : Value) : Schema v ↔ firstFailed (documentChecks v) = none :=
  (schema_iff v).trans firstFailed_eq_none_iff.symm

/-- The program that a document of the schema describes. -/
def programOf (tolerance : Float) (v : Value) : Program Float where
  objective := objectiveOf (v.member "objectiveType")
  costs := (v.member "coefficients").items.map Value.double
  constant := (v.member "constant").double
  restrictions := (v.member "restrictions").items.map restrictionOf
  relations := (v.member "constraints").items.map fun c => relationOf (c.member "type")
  rhs := (v.member "constraints").items.map fun c => (c.member "value").double
  rows :=
    (v.member "constraints").items.map fun c => (c.member "coefficients").items.map Value.double
  standard := false
  simplex := false
  tolerance

theorem member_of_get? {v a : Value} {name : String} (h : v.get? name = some a) :
    v.member name = a := by
  rw [Value.member, h]
  rfl

theorem Schema.counts {v : Value} (h : Schema v) :
    (v.member "restrictions").items.length = (v.member "coefficients").items.length := by
  obtain ⟨words, hwords, -, hlength⟩ := h.restrictions
  rw [member_of_get? hwords]
  exact hlength

theorem length_unknowns_draftOf {v : Value} (h : Schema v) :
    (draftOf v).unknowns.length = (v.member "coefficients").items.length := by
  rw [draftOf, List.length_zip, List.length_map, List.length_map, h.counts, Nat.min_self]

theorem program_draftOf {v : Value} (h : Schema v) (tolerance : Float) :
    (draftOf v).program tolerance = programOf tolerance v := by
  rw [Draft.program_eq, draftOf, programOf, List.map_fst_zip (by simp [h.counts]),
    List.map_snd_zip (by simp [h.counts])]
  simp [constraintOf, Function.comp_def]

theorem rows_draftOf {v : Value} (h : Schema v) :
    ∀ c ∈ (draftOf v).constraints, c.2.2.length = (draftOf v).unknowns.length := by
  rw [length_unknowns_draftOf h]
  obtain ⟨cs, hcs, hschema⟩ := h.constraints
  intro c hc
  rw [draftOf, member_of_get? hcs] at hc
  obtain ⟨w, hw, rfl⟩ := List.mem_map.1 hc
  obtain ⟨row, hrow, -, hlength⟩ := (hschema w hw).coefficients
  rw [constraintOf, member_of_get? hrow, List.length_map]
  exact hlength

end Decode

namespace Program

/-- Once its text is read, a document is judged by its checks. -/
theorem ofStored_eq {t : Text} {v : Value} (hread : Json.read Json.mostLevels t = .ok v)
    (tolerance : Float) :
    ofStored (.ok tolerance) (.string t) =
      match Check.firstFailed (Decode.documentChecks v) with
      | none => .ok ((Decode.draftOf v).program tolerance)
      | some c => .error (.document c.fault v) := by
  rw [ofStored, hread]
  dsimp only
  rw [ofValue, Decode.draft_eq, Check.guarded]
  cases Check.firstFailed (Decode.documentChecks v) <;> rfl

/-- A document of the schema is read as the program it describes. -/
theorem ofStored_of_schema {t : Text} {v : Value} (hread : Json.read Json.mostLevels t = .ok v)
    (h : Decode.Schema v) (tolerance : Float) :
    ofStored (.ok tolerance) (.string t) = .ok (Decode.programOf tolerance v) := by
  rw [ofStored_eq hread, (Decode.schema_iff_firstFailed v).1 h, Decode.program_draftOf h]

/-- A document is accepted exactly if it keeps to the schema. Then the program holds what
    the document says, and the additions it is made by succeed one after the other.
    Otherwise the document is refused with the fault and the message of the first check it
    fails, and with nothing else. -/
theorem ofStored_schema {t : Text} {v : Value} (hread : Json.read Json.mostLevels t = .ok v)
    (tolerance : Float) :
    ((∃ p, ofStored (.ok tolerance) (.string t) = .ok p) ↔ Decode.Schema v) ∧
    (∀ p, ofStored (.ok tolerance) (.string t) = .ok p →
      p = Decode.programOf tolerance v ∧
      ∃ d, Decode.draft v = .ok d ∧
        d.replay (Session.start (Program.empty d.objective tolerance)) = .ok () (Session.start p)) ∧
    ∀ e, ofStored (.ok tolerance) (.string t) = .error e ↔
      ∃ c, Check.firstFailed (Decode.documentChecks v) = some c ∧ e = .document c.fault v ∧
        c.fault.message = c.message := by
  rw [ofStored_eq hread, Decode.schema_iff_firstFailed]
  cases hfailed : Check.firstFailed (Decode.documentChecks v) with
  | none =>
    have h := (Decode.schema_iff_firstFailed v).2 hfailed
    refine ⟨⟨fun _ => rfl, fun _ => ⟨_, rfl⟩⟩, ?_, fun e => ⟨nofun, nofun⟩⟩
    rintro p ⟨⟩
    refine ⟨Decode.program_draftOf h tolerance, Decode.draftOf v, ?_,
      Draft.replay_ok tolerance (Decode.rows_draftOf h)⟩
    rw [Decode.draft_eq, Check.guarded, hfailed]
  | some c =>
    have hmessage := Decode.message_documentChecks v c (List.mem_of_find?_eq_some hfailed)
    refine ⟨⟨nofun, nofun⟩, nofun, fun e => ⟨?_, ?_⟩⟩
    · rintro ⟨⟩
      exact ⟨c, rfl, rfl, hmessage⟩
    · rintro ⟨_, ⟨⟩, rfl, -⟩
      rfl

end Program

/-- One variable with one bound, all numbers of it integers. -/
def Decode.oneVariable : Value := .ofMembers
  [("objectiveType", .ofString "maximize"), ("coefficients", .array [.int 3]),
    ("restrictions", .array [.ofString "non-negative"]),
    ("constraints", .array [.ofMembers
      [("type", .ofString "<="), ("value", .int 4), ("coefficients", .array [.int 1])]]),
    ("constant", .int 0)]

/-- An accepted document and a refused one. -/
theorem Program.ofStored_schema_samples :
    (∃ p, ofStored (.ok 0) (.string ((Json.write .line Decode.oneVariable).map .char)) = .ok p) ∧
    ∃ f, ofStored (.ok 0) (.string (Text.ofString "[]")) = .error (.document f (.array [])) ∧
      f.message = "Data is not an object" := by
  have haccepted :
      (Json.read Json.mostLevels ((Json.write .line Decode.oneVariable).map .char)).toOption.any
      (fun v => (Check.firstFailed (Decode.documentChecks v)).isNone) = true := by decide +kernel
  constructor
  · cases hread : Json.read Json.mostLevels ((Json.write .line Decode.oneVariable).map .char) with
    | ok v =>
      rw [hread] at haccepted
      refine (ofStored_schema hread 0).1.2
        ((Decode.schema_iff v).2 (Check.firstFailed_eq_none_iff.1 ?_))
      exact Option.isNone_iff_eq_none.1 haccepted
    | error e => simp [hread, Except.toOption] at haccepted
  · have hread : Json.read Json.mostLevels (Text.ofString "[]") = .ok (.array []) := rfl
    have hrefused := (ofStored_schema hread 0).2.2
    exact ⟨.notAnObject, (hrefused _).2
      ⟨⟨false, .notAnObject, "Data is not an object"⟩, rfl, rfl, rfl⟩, rfl⟩

end Simplex

import Ventstream.Joins.Key
import Ventstream.Library.Program

/-! # Join definitions

A definition names a primary table and the related tables whose rows are embedded
in the primary's document. `validateSpec` is the check every loader runs: related
ids key the shared reverse indexes and must be unique over the whole spec, and
the names that reach generated SQL must be identifiers. The definitions follow
`config.rs`.
-/

namespace Ventstream.Joins

open List

/-- Column names; reading a spec rejects an empty list. -/
structure PkSpec where
  columns : List String
  nonempty : columns ≠ []
  deriving DecidableEq

structure JoinOn where
  source : PkSpec
  target : PkSpec
  deriving DecidableEq

inductive Cardinality where
  | one
  | many
  deriving DecidableEq

inductive OnMissing where
  | null
  | emptyObject
  | dropPrimary
  deriving DecidableEq

inductive BackfillMode where
  | syncOnMiss
  | none
  deriving DecidableEq

structure PrimaryRef where
  table : String
  pk : PkSpec
  deriving DecidableEq

/-- One related table of a definition. `joinOn.source` are the `from` columns of the
    primary, `joinOn.target` the `to` columns of the related table. -/
structure RelatedDefinition where
  id : String
  table : String
  pk : PkSpec
  joinOn : JoinOn
  select : List String
  embedAs : String
  cardinality : Cardinality
  onMissing : OnMissing
  sortBy : Option String
  deriving DecidableEq

structure JoinDefinition where
  name : Option String
  primary : PrimaryRef
  related : List RelatedDefinition
  targetIndex : Option String
  backfill : BackfillMode
  deriving DecidableEq

/-- The characters of the Unicode property `White_Space`. -/
def isWhiteSpace (char : Char) : Bool :=
  let code := char.toNat
  (9 ≤ code && code ≤ 13) || (0x2000 ≤ code && code ≤ 0x200a) ||
    [0x20, 0x85, 0xa0, 0x1680, 0x2028, 0x2029, 0x202f, 0x205f, 0x3000].contains code

def trim (text : String) : String :=
  String.ofList (((text.toList.dropWhile isWhiteSpace).reverse.dropWhile isWhiteSpace).reverse)

namespace JoinDefinition

def effectiveName (defn : JoinDefinition) : String :=
  defn.name.getD defn.primary.table

/-- The index named by the spec, unless it is blank. -/
def target (defn : JoinDefinition) : Option String :=
  (defn.targetIndex.map trim).filter fun index => !index.isEmpty

end JoinDefinition

inductive SpecError where
  | duplicateRelatedId (id : String) (previous : Nat) (previousName : String) (index : Nat)
      (name : String)
  | unsafeIdentifier (join field value : String) (allowDot : Bool)
  deriving DecidableEq

/-- The text of a rejection; `debug` quotes a string as Rust's `{:?}` does. -/
def SpecError.message (debug : String → String) : SpecError → String
  | .duplicateRelatedId id previous previousName index name =>
    s!"related id `{id}` is declared more than once (join definitions #{previous + 1} " ++
      s!"`{previousName}` and #{index + 1} `{name}`). Related ids key the shared reverse " ++
      "indexes, so they must be unique across the whole spec — rename one of them"
  | .unsafeIdentifier join field value allowDot =>
    s!"join `{join}`: `{field}` value {debug value} is not a safe SQL identifier — " ++
      "use letters, digits, `_`, `-` or `$` only" ++
      (if allowDot then "" else
        " (`.` is reserved: embed_as is a single-segment path, and a dot would collide " ++
          "with nested-path lookups)") ++
      " (it is embedded in generated SQL, and must stay non-empty)"

section

/-- The relations of a spec in order, each with the number and name of its definition. -/
def numberedRelated (joins : List JoinDefinition) : List (RelatedDefinition × Nat × String) :=
  joins.zipIdx.flatMap fun (defn, index) =>
    defn.related.map fun rel => (rel, index, defn.effectiveName)

/-- The map from ids to definitions is a list with the latest entry first. -/
def checkRelatedIds (seen : List (String × Nat × String)) :
    List (RelatedDefinition × Nat × String) → Except SpecError Unit
  | [] => .ok ()
  | (rel, index, name) :: rest =>
    match seen.lookup rel.id with
    | some (previous, previousName) =>
      .error (.duplicateRelatedId rel.id previous previousName index name)
    | none => checkRelatedIds ((rel.id, index, name) :: seen) rest

def validateRelatedIdsUnique (joins : List JoinDefinition) : Except SpecError Unit :=
  checkRelatedIds [] (numberedRelated joins)

variable (isAlphanumeric : Char → Bool)

def checkIdentifier (join field value : String) (allowDot : Bool) : Except SpecError Unit :=
  if !value.isEmpty && value.toList.all (fun char =>
      isAlphanumeric char || char == '_' || char == '-' || char == '$' || (allowDot && char == '.'))
  then .ok ()
  else .error (.unsafeIdentifier join field value allowDot)

def validateSqlIdentifiers (joins : List JoinDefinition) : Except SpecError Unit :=
  joins.forM fun defn =>
    defn.related.forM fun rel => do
      checkIdentifier isAlphanumeric defn.effectiveName "embed_as" rel.embedAs false
      rel.select.forM fun column =>
        checkIdentifier isAlphanumeric defn.effectiveName "select" column true
      match rel.sortBy with
      | some sortBy =>
        checkIdentifier isAlphanumeric defn.effectiveName "sort_by" sortBy true
      | none => pure ()

/-- The check of a whole spec. `isAlphanumeric` is Unicode's notion, which the proofs never
    look into. -/
def validateSpec (joins : List JoinDefinition) : Except SpecError Unit := do
  validateRelatedIdsUnique joins
  validateSqlIdentifiers isAlphanumeric joins

def allRelated (joins : List JoinDefinition) : List RelatedDefinition :=
  joins.flatMap (·.related)

theorem map_fst_numberedRelated (joins : List JoinDefinition) :
    (numberedRelated joins).map (·.1) = allRelated joins := by
  unfold numberedRelated allRelated
  generalize 0 = first
  induction joins generalizing first with
  | nil => rfl
  | cons defn rest ih =>
    simp only [zipIdx_cons, flatMap_cons, map_append, ih]
    simp [Function.comp_def]

theorem checkRelatedIds_ok (accepted : checkRelatedIds seen relations = .ok ()) :
    (relations.map (·.1.id)).Nodup ∧ ∀ entry ∈ relations, seen.lookup entry.1.id = none := by
  induction relations generalizing seen with
  | nil => simp
  | cons entry rest ih =>
    obtain ⟨rel, index, name⟩ := entry
    unfold checkRelatedIds at accepted
    split at accepted
    case h_1 => cases accepted
    case h_2 fresh =>
      obtain ⟨distinct, unseen⟩ := ih accepted
      have apart : ∀ other ∈ rest, other.1.id ≠ rel.id ∧ seen.lookup other.1.id = none := by
        intro other mem
        have missing := unseen other mem
        simp only [lookup_cons] at missing
        split at missing
        case h_1 => cases missing
        case h_2 different => exact ⟨by simpa using different, missing⟩
      refine ⟨?_, ?_⟩
      · simp only [map_cons, nodup_cons, mem_map, not_exists, not_and]
        exact ⟨fun other mem => (apart other mem).1, distinct⟩
      · intro other mem
        cases mem with
        | head => exact fresh
        | tail _ later => exact (apart other later).2

theorem related_ids_nodup {isAlphanumeric} (accepted : validateSpec isAlphanumeric joins = .ok ()) :
    ((allRelated joins).map (·.id)).Nodup := by
  obtain ⟨_, unique, -⟩ := Library.ok_of_bind accepted
  have distinct := (checkRelatedIds_ok unique).1
  rw [← map_fst_numberedRelated, map_map]
  exact distinct

end

end Ventstream.Joins

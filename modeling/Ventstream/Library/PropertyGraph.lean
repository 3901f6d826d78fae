import Mathlib

/-! # Property graphs and the trails of a pattern

A property graph has nodes with labels and relationships with a type, both with
properties. A pattern is a list of hops, each crossing a relationship of one of its
types in its direction. A match of a pattern is a trail: no relationship is crossed twice.
-/

namespace Ventstream.Library

open List

namespace PropertyGraph

structure Node (ι τ π : Type) where
  id : ι
  labels : List τ
  props : π
  deriving DecidableEq

structure Relationship (ι τ π : Type) where
  id : ι
  type : τ
  start : ι
  stop : ι
  props : π
  deriving DecidableEq

/-- One relationship of a match and the node it leads to. -/
structure Crossing (ι τ π : Type) where
  rel : Relationship ι τ π
  node : Node ι τ π
  deriving DecidableEq

end PropertyGraph

structure PropertyGraph (ι τ π : Type) where
  nodes : List (PropertyGraph.Node ι τ π)
  rels : List (PropertyGraph.Relationship ι τ π)
  distinctNodes : (nodes.map PropertyGraph.Node.id).Nodup
  distinctRels : (rels.map PropertyGraph.Relationship.id).Nodup
  attached : ∀ rel ∈ rels, rel.start ∈ nodes.map PropertyGraph.Node.id ∧
    rel.stop ∈ nodes.map PropertyGraph.Node.id

inductive Direction where
  | out
  | into
  | undirected
  deriving DecidableEq

/-- One relationship of a pattern, with its allowed types. -/
structure Hop (τ : Type) where
  direction : Direction
  relTypes : List τ
  typed : relTypes ≠ []
  deriving DecidableEq

namespace PropertyGraph

variable {ι τ π : Type}

def arrival : ι → List (Crossing ι τ π) → ι
  | origin, [] => origin
  | _, step :: more => arrival step.node.id more

theorem arrival_concat : arrival origin (front ++ [step]) = step.node.id := by
  induction front generalizing origin with
  | nil => rfl
  | cons first more ih => exact ih

section

variable [DecidableEq ι] [DecidableEq τ]

/-- The node that a hop reaches over a relationship. -/
def cross (hop : Hop τ) (rel : Relationship ι τ π) (origin : ι) : Option ι :=
  if rel.type ∈ hop.relTypes then
    match hop.direction with
    | .out => if rel.start = origin then some rel.stop else none
    | .into => if rel.stop = origin then some rel.start else none
    | .undirected =>
      if rel.start = origin then some rel.stop
      else if rel.stop = origin then some rel.start
      else none
  else none

/-- The matches of a pattern from a node that do not cross the used relationships. -/
def trails (graph : PropertyGraph ι τ π) : List (Hop τ) → List ι → ι → List (List (Crossing ι τ π))
  | [], _, _ => [[]]
  | hop :: rest, used, origin =>
    graph.rels.flatMap fun rel =>
      if rel.id ∈ used then []
      else
        (graph.nodes.filter fun node => cross hop rel origin = some node.id).flatMap fun node =>
          (graph.trails rest (rel.id :: used) node.id).map (⟨rel, node⟩ :: ·)

variable {hop : Hop τ} {rel : Relationship ι τ π}

theorem cross_type (crosses : cross hop rel origin = some target) : rel.type ∈ hop.relTypes := by
  rw [cross] at crosses
  split at crosses
  · assumption
  · cases crosses

theorem cross_ends (crosses : cross hop rel origin = some target) :
    (rel.start = origin ∧ rel.stop = target ∧ hop.direction ≠ .into) ∨
      (rel.stop = origin ∧ rel.start = target ∧ hop.direction ≠ .out) := by
  rw [cross, if_pos (cross_type crosses)] at crosses
  split at crosses
  all_goals grind

theorem cross_congr (sameType : rel.type = later.type) (sameStart : rel.start = later.start)
    (sameStop : rel.stop = later.stop) : cross hop rel origin = cross hop later origin := by
  simp only [cross, sameType, sameStart, sameStop]

variable {graph : PropertyGraph ι τ π} {hop : Hop τ} {hops : List (Hop τ)} {used : List ι}
  {origin : ι}

theorem mem_trails_nil : steps ∈ graph.trails [] used origin ↔ steps = [] := by
  rw [trails, mem_singleton]

theorem mem_trails_cons :
    steps ∈ graph.trails (hop :: hops) used origin ↔ ∃ step more, steps = step :: more ∧
      step.rel ∈ graph.rels ∧ step.rel.id ∉ used ∧ step.node ∈ graph.nodes ∧
      cross hop step.rel origin = some step.node.id ∧
      more ∈ graph.trails hops (step.rel.id :: used) step.node.id := by
  rw [trails, mem_flatMap]
  constructor
  · rintro ⟨rel, isRel, inside⟩
    split at inside
    · cases inside
    · rename_i unused
      obtain ⟨node, isNode, inside⟩ := mem_flatMap.mp inside
      obtain ⟨more, isMore, rfl⟩ := mem_map.mp inside
      rw [mem_filter, decide_eq_true_eq] at isNode
      exact ⟨⟨rel, node⟩, more, rfl, isRel, unused, isNode.1, isNode.2, isMore⟩
  · rintro ⟨step, more, rfl, isRel, unused, isNode, crosses, isMore⟩
    refine ⟨step.rel, isRel, ?_⟩
    rw [if_neg unused, mem_flatMap]
    refine ⟨step.node, mem_filter.mpr ⟨isNode, by simpa using crosses⟩, ?_⟩
    exact mem_map_of_mem isMore

/-- A match is split at one of its crossings: before it stands a match of a front of the
    pattern, and the next hop of the pattern crosses. -/
theorem trail_split (isTrail : front ++ step :: rest ∈ graph.trails hops used origin) :
    ∃ before hop after, hops = before ++ hop :: after ∧ front ∈ graph.trails before used origin ∧
      front ++ [step] ∈ graph.trails (before ++ [hop]) used origin ∧
      step.rel ∈ graph.rels ∧ step.node ∈ graph.nodes ∧
      cross hop step.rel (arrival origin front) = some step.node.id := by
  induction front generalizing hops used origin with
  | nil =>
    cases hops with
    | nil => cases mem_trails_nil.mp isTrail
    | cons hop others =>
      obtain ⟨_, _, same, isRel, unused, isNode, crosses, _⟩ := mem_trails_cons.mp isTrail
      cases same
      refine ⟨[], hop, others, rfl, mem_trails_nil.mpr rfl, ?_, isRel, isNode, crosses⟩
      exact mem_trails_cons.mpr
        ⟨step, [], rfl, isRel, unused, isNode, crosses, mem_trails_nil.mpr rfl⟩
  | cons first more ih =>
    cases hops with
    | nil => cases mem_trails_nil.mp isTrail
    | cons hop others =>
      obtain ⟨_, _, same, isRel, unused, isNode, crosses, isMore⟩ := mem_trails_cons.mp isTrail
      cases same
      obtain ⟨before, last, after, rfl, isFront, isLonger, rest⟩ := ih isMore
      refine ⟨hop :: before, last, after, rfl, ?_, ?_, rest⟩
      · exact mem_trails_cons.mpr ⟨first, more, rfl, isRel, unused, isNode, crosses, isFront⟩
      · exact mem_trails_cons.mpr
          ⟨first, more ++ [step], rfl, isRel, unused, isNode, crosses, isLonger⟩

/-- A match without the condition on its relationships. -/
def IsWalk (graph : PropertyGraph ι τ π) : List (Hop τ) → ι → List (Crossing ι τ π) → Prop
  | [], _, [] => True
  | hop :: rest, origin, step :: more =>
    step.rel ∈ graph.rels ∧ step.node ∈ graph.nodes ∧
      cross hop step.rel origin = some step.node.id ∧ graph.IsWalk rest step.node.id more
  | _, _, _ => False

theorem mem_trails_of_isWalk (isWalk : graph.IsWalk hops origin steps)
    (distinct : (steps.map fun step => step.rel.id).Nodup)
    (unused : ∀ step ∈ steps, step.rel.id ∉ used) : steps ∈ graph.trails hops used origin := by
  induction hops generalizing used origin steps with
  | nil =>
    cases steps with
    | nil => exact mem_trails_nil.mpr rfl
    | cons => exact isWalk.elim
  | cons hop rest ih =>
    cases steps with
    | nil => exact isWalk.elim
    | cons step more =>
      obtain ⟨isRel, isNode, crosses, isMore⟩ := isWalk
      rw [map_cons, nodup_cons] at distinct
      refine mem_trails_cons.mpr ⟨step, more, rfl, isRel, unused step mem_cons_self, isNode,
        crosses, ih isMore distinct.2 fun later isLater => ?_⟩
      rw [mem_cons, not_or]
      refine ⟨fun same => distinct.1 ?_, unused later (mem_cons_of_mem _ isLater)⟩
      exact same ▸ mem_map_of_mem isLater

theorem IsWalk.append (isFront : graph.IsWalk hops origin front)
    (isRest : graph.IsWalk more (arrival origin front) rest) :
    graph.IsWalk (hops ++ more) origin (front ++ rest) := by
  induction hops generalizing origin front with
  | nil =>
    cases front with
    | nil => exact isRest
    | cons => exact isFront.elim
  | cons hop others ih =>
    cases front with
    | nil => exact isFront.elim
    | cons step later =>
      obtain ⟨isRel, isNode, crosses, isLater⟩ := isFront
      exact ⟨isRel, isNode, crosses, ih isLater isRest⟩

/-- A node whose relationships are all loops is not left. -/
theorem arrival_of_loops
    (loops : ∀ rel ∈ graph.rels, rel.start = origin ∨ rel.stop = origin →
      rel.start = origin ∧ rel.stop = origin)
    (isTrail : steps ∈ graph.trails hops used origin) : arrival origin steps = origin := by
  induction hops generalizing used steps with
  | nil =>
    obtain rfl := mem_trails_nil.mp isTrail
    rfl
  | cons hop rest ih =>
    obtain ⟨step, more, rfl, isRel, _, _, crosses, isMore⟩ := mem_trails_cons.mp isTrail
    have back : step.node.id = origin := by
      rcases cross_ends crosses with ⟨isStart, isStop, _⟩ | ⟨isStop, isStart, _⟩
      · exact isStop.symm.trans (loops _ isRel (.inl isStart)).2
      · exact isStart.symm.trans (loops _ isRel (.inr isStop)).1
    rw [back] at isMore
    rw [arrival, back]
    exact ih isMore

theorem trail_mono {other : PropertyGraph ι τ π} (isTrail : steps ∈ graph.trails hops used origin)
    (kept : ∀ step ∈ steps, step.rel ∈ other.rels ∧ step.node ∈ other.nodes) :
    steps ∈ other.trails hops used origin := by
  induction hops generalizing used origin steps with
  | nil => exact mem_trails_nil.mpr (mem_trails_nil.mp isTrail)
  | cons hop rest ih =>
    obtain ⟨step, more, rfl, _, unused, _, crosses, isMore⟩ := mem_trails_cons.mp isTrail
    obtain ⟨isRel, isNode⟩ := kept step mem_cons_self
    exact mem_trails_cons.mpr ⟨step, more, rfl, isRel, unused, isNode, crosses,
      ih isMore fun later isLater => kept later (mem_cons_of_mem _ isLater)⟩

end

section

/-- A relationship keeps its type and its ends as long as it lives. -/
def Evolves (before after : PropertyGraph ι τ π) : Prop :=
  ∀ rel ∈ before.rels, ∀ later ∈ after.rels, rel.id = later.id →
    rel.type = later.type ∧ rel.start = later.start ∧ rel.stop = later.stop

variable [DecidableEq ι] [DecidableEq τ]

theorem trail_survives {before after : PropertyGraph ι τ π} (evolves : Evolves before after)
    (isTrail : steps ∈ before.trails hops used origin)
    (alive : ∀ step ∈ steps, step.rel.id ∈ after.rels.map Relationship.id) :
    ∃ moved ∈ after.trails hops used origin, arrival origin moved = arrival origin steps := by
  induction hops generalizing used origin steps with
  | nil =>
    obtain rfl := mem_trails_nil.mp isTrail
    exact ⟨[], mem_trails_nil.mpr rfl, rfl⟩
  | cons hop rest ih =>
    obtain ⟨step, more, rfl, isRel, unused, _, crosses, isMore⟩ := mem_trails_cons.mp isTrail
    obtain ⟨later, isLater, sameId⟩ := mem_map.mp (alive step mem_cons_self)
    obtain ⟨sameType, sameStart, sameStop⟩ := evolves _ isRel _ isLater sameId.symm
    obtain ⟨moved, isMoved, arrives⟩ :=
      ih isMore fun other isOther => alive other (mem_cons_of_mem _ isOther)
    -- The far end of a relationship that lives on is a node of the graph.
    have crossesLater : cross hop later origin = some step.node.id := by
      rw [← cross_congr sameType sameStart sameStop, crosses]
    obtain ⟨node, isNode, isFar⟩ : ∃ node ∈ after.nodes, node.id = step.node.id := by
      obtain ⟨start, stop⟩ := after.attached later isLater
      rcases cross_ends crossesLater with ⟨_, isFar, _⟩ | ⟨_, isFar, _⟩
      · exact mem_map.mp (isFar ▸ stop)
      · exact mem_map.mp (isFar ▸ start)
    refine ⟨⟨later, node⟩ :: moved, mem_trails_cons.mpr ⟨⟨later, node⟩, moved, rfl, isLater,
      ?_, isNode, ?_, ?_⟩, ?_⟩
    · exact sameId ▸ unused
    · exact isFar ▸ crossesLater
    · simpa only [isFar, sameId] using isMoved
    · simpa only [arrival, isFar] using arrives

end

end PropertyGraph

theorem exists_first_not {α : Type} {property : α → Prop} {items : List α}
    (isMissing : ¬ ∀ item ∈ items, property item) :
    ∃ front item rest, items = front ++ item :: rest ∧ (∀ earlier ∈ front, property earlier) ∧
      ¬ property item := by
  induction items with
  | nil => exact absurd (by simp) isMissing
  | cons head others ih =>
    by_cases isHead : property head
    · have later : ¬ ∀ item ∈ others, property item :=
        fun all => isMissing (forall_mem_cons.mpr ⟨isHead, all⟩)
      obtain ⟨front, item, rest, rfl, holds, fails⟩ := ih later
      exact ⟨head :: front, item, rest, rfl, forall_mem_cons.mpr ⟨isHead, holds⟩, fails⟩
    · exact ⟨[], head, others, rfl, by simp, isHead⟩

end Ventstream.Library

import Ventstream.Neo4j.Denormalize

/-! # Which primaries a transaction recomposes

A match of a path that a transaction changes is reached from an end of the changed
relationship, or from the changed node, in the graph after it. A deleted relationship
is reached from its near end only. This is lost where the path crosses a relationship
type the other way than the table of shared lookup nodes has it.
-/

namespace Ventstream.Neo4j

open Library Library.PropertyGraph
open List hiding after min

variable {π δ : Type} {spec : DenormalizeSpec π δ} {hot : SpecHotEndpoints}

/-- The matches of a path from one primary, with all that they show of the graph. -/
def matchesOf (spec : DenormalizeSpec π δ) (graph : Graph π) (path : List (Hop String))
    (id : ElementId) : List (Node ElementId String π × List (Crossing ElementId String π)) :=
  (graph.nodes.filter fun node => node.id = id ∧ spec.primaryLabel ∈ node.labels).flatMap
    fun node => (graph.trails path [] id).map fun steps => (node, steps)

/-- What the paths of the spec show of a primary is not the same before and after. -/
def Changed (spec : DenormalizeSpec π δ) (before after : Graph π) (id : ElementId) : Prop :=
  ∃ path ∈ spec.paths, ∃ found,
    ¬(found ∈ matchesOf spec before path id ↔ found ∈ matchesOf spec after path id)

/-- Every changed primary is selected from the anchors of the events. -/
def Complete (spec : DenormalizeSpec π δ) (hot : SpecHotEndpoints) (before after : Graph π)
    (evs : List ChangeEvent) : Prop :=
  ∀ id, IsPrimary spec after id → Changed spec before after id →
    id ∈ selectPrimaries spec after (anchorEids spec hot evs)

/-- Every hop reaches the end that the table has as the far one of its types. -/
def Oriented (spec : DenormalizeSpec π δ) (hot : SpecHotEndpoints) : Prop :=
  ∀ path ∈ spec.paths, ∀ hop ∈ path, ∀ relType ∈ hop.relTypes, ∀ entry,
    hot.byRel relType = some entry → farSideOf hop.direction = some entry.farSide

/-- A graph after any number of transactions. -/
def Later : Graph π → Graph π → Prop := Relation.ReflTransGen Evolves

section

variable {operation : String} {rel : Relationship ElementId String π}

theorem keepEndpoints_or (hot : SpecHotEndpoints) (relType startEid endEid : Option String) :
    (hot.keepEndpoints relType startEid endEid).1 ∨
      (hot.keepEndpoints relType startEid endEid).2 := by
  rw [SpecHotEndpoints.keepEndpoints]
  split
  · exact .inl rfl
  · split
    · exact .inl rfl
    · exact .inr rfl

variable {origin target : ElementId}

theorem anchor_of_either_end (crosses : cross hop rel origin = some target) :
    origin.val ∈ (noted spec hot (relationshipEvent operation rel)).recompose ∨ target.val ∈
        (noted spec hot (relationshipEvent operation rel)).recompose := by
  simp only [mem_note_relationshipEvent]
  have keeps := keepEndpoints_or hot (some rel.type) (some rel.start.val) (some rel.stop.val)
  rcases cross_ends crosses with ⟨rfl, rfl, _⟩ | ⟨rfl, rfl, _⟩ <;> tauto

theorem anchor_of_near_end (crosses : cross hop rel origin = some target)
    (oriented : ∀ entry, hot.byRel rel.type = some entry →
      farSideOf hop.direction = some entry.farSide) :
    origin.val ∈ (noted spec hot (relationshipEvent operation rel)).recompose := by
  rw [mem_note_relationshipEvent, SpecHotEndpoints.keepEndpoints, Option.bind_some]
  cases isEntry : hot.byRel rel.type with
  | none =>
    rcases cross_ends crosses with ⟨rfl, _, _⟩ | ⟨rfl, _, _⟩ <;> simp
  | some entry =>
    have far := oriented entry isEntry
    rcases cross_ends crosses with ⟨rfl, _, forward⟩ | ⟨rfl, _, backward⟩
    · cases direction : hop.direction with
      | out =>
        rw [direction] at far
        simp [← Option.some.inj far]
      | into => exact absurd direction forward
      | undirected => simp [direction, farSideOf] at far
    · cases direction : hop.direction with
      | out => exact absurd direction backward
      | into =>
        rw [direction] at far
        simp [← Option.some.inj far]
      | undirected => simp [direction, farSideOf] at far

theorem not_anchor_of_far_end {id : ElementId} (isEntry : hot.byRel rel.type = some entry)
    (isHot : id.val ∈ entry.eids) (isFar : entry.farSide = .stop ∧ rel.stop = id ∧ rel.start ≠ id ∨
      entry.farSide = .start ∧ rel.start = id ∧ rel.stop ≠ id) (isOther : rel.id ≠ id) :
    id.val ∉ (noted spec hot (relationshipEvent operation rel)).recompose := by
  have different {other : ElementId} (differs : other ≠ id) : id.val ≠ other.val :=
    fun same => differs (Subtype.ext same.symm)
  rw [mem_note_relationshipEvent, SpecHotEndpoints.keepEndpoints, Option.bind_some, isEntry]
  rcases isFar with ⟨isStop, rfl, leaves⟩ | ⟨isStart, rfl, leaves⟩
  · simp [isStop, isHot, different leaves, different isOther]
  · simp [isStart, isHot, different leaves, different isOther]

end

variable {node : Node ElementId String π}

section

variable {before after : Graph π} {evs : List ChangeEvent} {id : ElementId}

variable {path front rest : List (Hop String)}

theorem selectPrimaries_congr (same : ∀ eid, eid ∈ eids ↔ eid ∈ others) :
    selectPrimaries spec graph eids = selectPrimaries spec graph others := by
  simp only [selectPrimaries, same]

theorem mem_matchesOf :
    (node, steps) ∈ matchesOf spec graph path id ↔ node ∈ graph.nodes ∧ node.id = id ∧
      spec.primaryLabel ∈ node.labels ∧ steps ∈ graph.trails path [] id := by
  simp only [matchesOf, mem_flatMap, mem_filter, decide_eq_true_eq, mem_map, Prod.mk.injEq]
  constructor
  · rintro ⟨_, ⟨isNode, same, labelled⟩, _, isTrail, rfl, rfl⟩
    exact ⟨isNode, same, labelled, isTrail⟩
  · rintro ⟨isNode, same, labelled, isTrail⟩
    exact ⟨node, ⟨isNode, same, labelled⟩, steps, isTrail, rfl, rfl⟩

section

variable [DecidableEq π]

/-- A node that is not the same afterwards is named by an event, unless it is gone. -/
theorem event_of_node (isReport : evs.Perm (changeEvents before after))
    (differs : node ∈ before.nodes ∧ node ∉ after.nodes ∨ node ∈ after.nodes ∧ node ∉ before.nodes)
    (lives : node.id ∈ after.nodes.map Node.id) :
    ∃ ev ∈ evs, (noted spec hot ev).recompose = {node.id.val} := by
  have reported {ev : ChangeEvent} isEvent : ev ∈ evs :=
    isReport.mem_iff.mpr (mem_append_left _ isEvent)
  rcases reported_of_change after.distinctNodes differs with
    ⟨gone, _⟩ | isEvent | ⟨_, _, _, _, same, isEither, isEvent⟩
  · exact absurd lives gone
  · exact ⟨_, reported isEvent, by rw [note_nodeEvent (by decide)]⟩
  · refine ⟨_, reported isEvent, ?_⟩
    rw [note_nodeEvent (by decide)]
    rcases isEither with rfl | rfl
    · rw [same]
    · rfl

/-- A relationship that is not the same afterwards is named by an event, with its type and its
    ends. -/
theorem event_of_rel (evolves : Evolves before after)
    (isReport : evs.Perm (changeEvents before after))
    (differs : rel ∈ before.rels ∧ rel ∉ after.rels ∨ rel ∈ after.rels ∧ rel ∉ before.rels) :
    ∃ operation, ∃ named : Relationship ElementId String π, named.type = rel.type ∧
      named.start = rel.start ∧ named.stop = rel.stop ∧
      relationshipEvent operation named ∈ evs := by
  have reported {ev : ChangeEvent} isEvent : ev ∈ evs :=
    isReport.mem_iff.mpr (mem_append_right _ isEvent)
  rcases reported_of_change after.distinctRels differs with
    ⟨_, isEvent⟩ | isEvent | ⟨_, isOld, _, isLater, same, isEither, isEvent⟩
  · exact ⟨_, rel, rfl, rfl, rfl, reported isEvent⟩
  · exact ⟨_, rel, rfl, rfl, rfl, reported isEvent⟩
  · obtain ⟨sameType, sameStart, sameStop⟩ := evolves _ isOld _ isLater same.symm
    refine ⟨_, _, ?_, ?_, ?_, reported isEvent⟩ <;> rcases isEither with rfl | rfl <;> simp [*]

end

/-- The primary is selected from the anchors of the events. -/
def Selected (spec : DenormalizeSpec π δ) (hot : SpecHotEndpoints) (after : Graph π)
    (evs : List ChangeEvent) (id : ElementId) : Prop :=
  id ∈ selectPrimaries spec after (anchorEids spec hot evs)

variable (bounded : ∀ path ∈ spec.paths, path.length ≤ spec.fanOutMaxHops)
  (isPrimary : IsPrimary spec after id) (isPath : path ∈ spec.paths)
include bounded isPath

theorem mem_fanOutBranches (isFront : path = front ++ rest) : front ∈ fanOutBranches spec := by
  cases front with
  | nil => exact mem_cons_self
  | cons hop others =>
    refine mem_cons_of_mem _ (mem_flatMap.mpr ⟨path, isPath, ?_⟩)
    have within := bounded path isPath
    rw [isFront, length_append, length_cons] at within
    refine mem_map.mpr ⟨others.length, mem_range.mpr ?_, ?_⟩
    · rw [isFront, length_append, length_cons]
      omega
    · rw [isFront, ← length_cons (a := hop), take_left]

include isPrimary

theorem selected_of_arrival (isFront : path = front ++ rest)
    (isTrail : steps ∈ after.trails front [] id) (isEvent : ev ∈ evs)
    (isAnchor : (arrival id steps).val ∈ (noted spec hot ev).recompose) :
    Selected spec hot after evs id := by
  obtain ⟨node, isNode, rfl, labelled⟩ := isPrimary
  refine mem_map.mpr ⟨node, mem_filter.mpr ⟨isNode, ?_⟩, rfl⟩
  rw [decide_eq_true_eq]
  refine ⟨labelled, front, mem_fanOutBranches bounded isPath isFront, steps, isTrail, ?_⟩
  rw [Finset.mem_sort]
  exact ((mem_affectedBy spec hot evs _).1).mpr ⟨ev, isEvent, isAnchor⟩

variable [DecidableEq π] (isReport : evs.Perm (changeEvents before after))
include isReport

theorem selected_of_both_ends (evolves : Evolves before after)
    (isFront : path = front ++ hop :: rest)
    (differs : rel ∈ before.rels ∧ rel ∉ after.rels ∨ rel ∈ after.rels ∧ rel ∉ before.rels)
    (crosses : cross hop rel origin = some target) (isNear : near ∈ after.trails front [] id)
    (nearArrives : arrival id near = origin) (isFar : far ∈ after.trails (front ++ [hop]) [] id)
    (farArrives : arrival id far = target) : Selected spec hot after evs id := by
  obtain ⟨operation, named, sameType, sameStart, sameStop, isEvent⟩ :=
    event_of_rel evolves isReport differs
  rw [← cross_congr sameType sameStart sameStop] at crosses
  rcases anchor_of_either_end crosses with isAnchor | isAnchor
  · exact selected_of_arrival bounded isPrimary isPath isFront isNear isEvent
      (nearArrives ▸ isAnchor)
  · exact selected_of_arrival bounded isPrimary isPath (by rw [isFront, append_cons]) isFar
      isEvent (farArrives ▸ isAnchor)

theorem selected_of_node (isFront : path = front ++ rest)
    (isTrail : steps ∈ after.trails front [] id) (arrives : arrival id steps = node.id)
    (differs : node ∈ before.nodes ∧ node ∉ after.nodes ∨ node ∈ after.nodes ∧ node ∉ before.nodes)
    (lives : node.id ∈ after.nodes.map Node.id) : Selected spec hot after evs id := by
  obtain ⟨ev, isEvent, isNamed⟩ := event_of_node isReport differs lives
  refine selected_of_arrival bounded isPrimary isPath isFront isTrail isEvent ?_
  rw [isNamed, arrives, Finset.mem_singleton]

theorem selected_of_new (evolves : Evolves before after)
    (isNow : found ∈ matchesOf spec after path id)
    (isNotThen : found ∉ matchesOf spec before path id) : Selected spec hot after evs id := by
  obtain ⟨node, steps⟩ := found
  obtain ⟨isNode, isId, labelled, isTrail⟩ := mem_matchesOf.mp isNow
  by_cases nodeKept : node ∈ before.nodes
  · have unknown : ¬ ∀ step ∈ steps, step.rel ∈ before.rels ∧ step.node ∈ before.nodes :=
      fun kept => isNotThen (mem_matchesOf.mpr ⟨nodeKept, isId, labelled, trail_mono isTrail kept⟩)
    obtain ⟨front, step, rest, rfl, _, isNew⟩ := exists_first_not unknown
    obtain ⟨hopsBefore, hop, hopsAfter, isHops, isFront, isLonger, isRel, isStop, crosses⟩ :=
      trail_split isTrail
    by_cases relKept : step.rel ∈ before.rels
    · exact selected_of_node bounded isPrimary isPath isReport
        (isHops.trans (append_cons _ _ _)) isLonger arrival_concat
        (.inr ⟨isStop, fun nodeKept => isNew ⟨relKept, nodeKept⟩⟩) (mem_map_of_mem isStop)
    · exact selected_of_both_ends bounded isPrimary isPath isReport evolves isHops
        (.inr ⟨isRel, relKept⟩) crosses isFront rfl isLonger arrival_concat
  · exact selected_of_node bounded isPrimary isPath isReport (nil_append path).symm
      (mem_trails_nil.mpr rfl) isId.symm (.inr ⟨isNode, nodeKept⟩) (mem_map_of_mem isNode)

/-- A match that is gone, or has something on it that was changed, selects its primary: from
    the near end of the first relationship that is gone, or from what was changed. -/
theorem selected_of_lost (oriented : Oriented spec hot) (evolves : Evolves before after)
    (isThen : found ∈ matchesOf spec before path id)
    (isNotNow : found ∉ matchesOf spec after path id) : Selected spec hot after evs id := by
  obtain ⟨node, steps⟩ := found
  obtain ⟨isNode, isId, labelled, isTrail⟩ := mem_matchesOf.mp isThen
  by_cases alive : ∀ step ∈ steps, step.rel.id ∈ after.rels.map Relationship.id
  · by_cases nodeKept : node ∈ after.nodes
    · have changed : ¬ ∀ step ∈ steps, step.rel ∈ after.rels ∧ step.node ∈ after.nodes :=
        fun kept => isNotNow (mem_matchesOf.mpr ⟨nodeKept, isId, labelled, trail_mono isTrail kept⟩)
      obtain ⟨front, step, rest, rfl, _, isGone⟩ := exists_first_not changed
      obtain ⟨hopsBefore, hop, hopsAfter, isHops, isFront, isLonger, isRel, isStop, crosses⟩ :=
        trail_split isTrail
      obtain ⟨near, isNear, nearArrives⟩ := trail_survives evolves isFront
        fun other isOther => alive other (mem_append_left _ isOther)
      obtain ⟨far, isFar, farArrives⟩ := trail_survives evolves isLonger fun other isOther =>
        alive other (by
          rw [append_cons]
          exact mem_append_left _ isOther)
      rw [arrival_concat] at farArrives
      by_cases relKept : step.rel ∈ after.rels
      · have lives : step.node.id ∈ after.nodes.map Node.id := by
          obtain ⟨start, stop⟩ := after.attached step.rel relKept
          rcases cross_ends crosses with ⟨_, isEnd, _⟩ | ⟨_, isEnd, _⟩
          · exact isEnd ▸ stop
          · exact isEnd ▸ start
        exact selected_of_node bounded isPrimary isPath isReport
          (isHops.trans (append_cons _ _ _)) isFar farArrives
          (.inl ⟨isStop, fun nodeKept => isGone ⟨relKept, nodeKept⟩⟩) lives
      · exact selected_of_both_ends bounded isPrimary isPath isReport evolves isHops
          (.inl ⟨isRel, relKept⟩) crosses isNear nearArrives isFar farArrives
    · have ⟨later, isLater, sameId, _⟩ := isPrimary
      exact selected_of_node bounded isPrimary isPath isReport (nil_append path).symm
        (mem_trails_nil.mpr rfl) isId.symm
        (.inl ⟨isNode, nodeKept⟩) (mem_map.mpr ⟨later, isLater, sameId.trans isId.symm⟩)
  · obtain ⟨front, step, rest, rfl, alive, isGone⟩ := exists_first_not alive
    obtain ⟨hopsBefore, hop, hopsAfter, isHops, isFront, _, isRel, _, crosses⟩ :=
      trail_split isTrail
    obtain ⟨near, isNear, nearArrives⟩ := trail_survives evolves isFront alive
    obtain ⟨operation, named, sameType, sameStart, sameStop, isEvent⟩ :=
      event_of_rel evolves isReport
        (.inl ⟨isRel, fun isKept => isGone (mem_map_of_mem isKept)⟩)
    rw [← cross_congr sameType sameStart sameStop] at crosses
    refine selected_of_arrival bounded isPrimary isPath isHops isNear isEvent ?_
    rw [nearArrives]
    exact anchor_of_near_end crosses
      (oriented path isPath hop (by simp [isHops]) named.type (cross_type crosses))

end

theorem complete_of_oriented [DecidableEq π]
    (bounded : ∀ path ∈ spec.paths, path.length ≤ spec.fanOutMaxHops) (oriented : Oriented spec hot)
    (evolves : Evolves before after) (isReport : evs.Perm (changeEvents before after)) :
    Complete spec hot before after evs := by
  intro id isPrimary changed
  obtain ⟨path, isPath, found, differs⟩ := changed
  by_cases isNow : found ∈ matchesOf spec after path id
  · exact selected_of_new bounded isPrimary isPath isReport evolves isNow
      fun isThen => differs ⟨fun _ => isNow, fun _ => isThen⟩
  · refine selected_of_lost bounded isPrimary isPath isReport oriented evolves ?_ isNow
    by_contra isNotThen
    exact differs ⟨fun isThen => absurd isThen isNotThen, fun isNow' => absurd isNow' isNow⟩

section

/-- Every entry of a table drops some node. -/
def Named (table : String → Option HotRel) : Prop :=
  ∀ relType entry, table relType = some entry → ∃ id : ElementId, id.val ∈ entry.eids

variable {builder : HotBuilder} {graph : Graph π} {threshold : Nat}

theorem Named.update {table : String → Option HotRel} {value : Option HotRel} (named : Named table)
    (isNamed : ∀ entry, value = some entry → ∃ id : ElementId, id.val ∈ entry.eids) :
    Named (Function.update table relType value) := by
  intro other entry isEntry
  by_cases same : other = relType
  · rw [same, Function.update_self] at isEntry
    exact isNamed entry isEntry
  · rw [Function.update_of_ne same] at isEntry
    exact named other entry isEntry

theorem Named.add (named : Named builder.byRel) (isNamed : ∃ id : ElementId, id.val ∈ eids) :
    Named (builder.add relType farSide eids).byRel := by
  obtain ⟨id, isHot⟩ := isNamed
  rw [HotBuilder.add]
  split
  · exact named
  · split
    · split
      · exact named.update (by simp)
      · exact named.update fun entry isEntry => ⟨id, by simp [← Option.some.inj isEntry, isHot]⟩
    · exact named.update fun entry isEntry => ⟨id, by simp [← Option.some.inj isEntry, isHot]⟩

theorem countPathEndpoints_named
    (isCounted : countPathEndpoints graph primaryLabel hops threshold = some eids) :
    ∃ id : ElementId, id.val ∈ eids := by
  simp only [countPathEndpoints] at isCounted
  split at isCounted
  · cases isCounted
  · split at isCounted
    · cases isCounted
    · rename_i isSome
      rw [List.isEmpty_iff] at isSome
      obtain ⟨text, isText⟩ := exists_mem_of_ne_nil _ isSome
      obtain ⟨id, _, rfl⟩ := mem_map.mp isText
      refine ⟨id, ?_⟩
      rw [← Option.some.inj isCounted, mem_toFinset]
      exact isText

theorem Named.probe {path : List (Hop String)} (named : Named builder.byRel) (depth : Nat) :
    Named (probe graph spec threshold path builder depth).byRel := by
  rw [Neo4j.probe]
  split
  · exact named
  · rename_i last isLast
    split
    · rename_i farSide eids isFar isCounted
      have isNamed := countPathEndpoints_named isCounted
      generalize last.relTypes = relTypes
      induction relTypes generalizing builder with
      | nil => exact named
      | cons relType rest ih => exact ih (named.add isNamed)
    · exact named

theorem computeForSpec_named (startup : Graph π) (spec : DenormalizeSpec π δ) (threshold : Nat) :
    Named (computeForSpec startup spec threshold).byRel := by
  rw [computeForSpec]
  split
  · intro relType entry isEntry
    cases isEntry
  · have probed (path : List (Hop String)) (depths : List Nat) {builder : HotBuilder}
        (named : Named builder.byRel) :
        Named (depths.foldl (Neo4j.probe startup spec threshold path) builder).byRel := by
      induction depths generalizing builder with
      | nil => exact named
      | cons depth rest ih => exact ih (named.probe depth)
    have built (paths : List (List (Hop String))) {builder : HotBuilder}
        (named : Named builder.byRel) :
        Named (paths.foldl (fun builder path =>
          (range (min path.length spec.fanOutMaxHops)).foldl
            (Neo4j.probe startup spec threshold path) builder) builder).byRel := by
      induction paths generalizing builder with
      | nil => exact named
      | cons path rest ih => exact ih (probed path _ named)
    refine built spec.paths ?_
    intro relType entry isEntry
    cases isEntry

end

section

/-- Two nodes with a relationship between them, and on each a loop for every hop of a path before
    or after it. -/
structure Detour (π : Type) where
  name : Nat → ElementId
  injective : Function.Injective name
  near : Node ElementId String π
  far : Node ElementId String π
  apart : near.id ≠ far.id
  front : List (Hop String)
  back : List (Hop String)
  relType : String
  forward : Bool

def loopsAt (name : Nat → ElementId) (node : Node ElementId String π) :
    List (Hop String) → Nat → List (Crossing ElementId String π)
  | [], _ => []
  | hop :: rest, first =>
    ⟨⟨name first, hop.relTypes.head hop.typed, node.id, node.id, node.props⟩, node⟩ ::
      loopsAt name node rest (first + 1)

variable {name : Nat → ElementId} {hops : List (Hop String)} {first : Nat}

theorem ids_loopsAt : (loopsAt name node hops first).map (fun step => step.rel.id) =
    (range' first hops.length).map name := by
  induction hops generalizing first with
  | nil => rfl
  | cons hop rest ih => rw [loopsAt, map_cons, ih, length_cons, range'_succ, map_cons]

theorem ends_loopsAt (isStep : step ∈ loopsAt name node hops first) :
    step.rel.start = node.id ∧ step.rel.stop = node.id ∧ step.node = node := by
  induction hops generalizing first with
  | nil => cases isStep
  | cons hop rest ih =>
    rcases mem_cons.mp isStep with rfl | later
    · exact ⟨rfl, rfl, rfl⟩
    · exact ih later

theorem arrival_loopsAt : arrival node.id (loopsAt name node hops first) = node.id := by
  induction hops generalizing first with
  | nil => rfl
  | cons hop rest ih => exact ih

theorem isWalk_loopsAt {graph : Graph π} (isNode : node ∈ graph.nodes)
    (present : ∀ step ∈ loopsAt name node hops first, step.rel ∈ graph.rels) :
    graph.IsWalk hops node.id (loopsAt name node hops first) := by
  induction hops generalizing first with
  | nil => exact trivial
  | cons hop rest ih =>
    refine ⟨present _ mem_cons_self, isNode, ?_, ?_⟩
    · rw [cross, if_pos (head_mem hop.typed)]
      cases hop.direction <;> simp
    · exact ih fun step isStep => present step (mem_cons_of_mem _ isStep)

namespace Detour

variable (detour : Detour π)

def edge : Relationship ElementId String π where
  id := detour.name (detour.front.length + 1)
  type := detour.relType
  start := if detour.forward then detour.near.id else detour.far.id
  stop := if detour.forward then detour.far.id else detour.near.id
  props := detour.near.props

def loops : List (Crossing ElementId String π) := loopsAt detour.name detour.near detour.front 1

def farLoops : List (Crossing ElementId String π) :=
  loopsAt detour.name detour.far detour.back (detour.front.length + 2)

def steps : List (Crossing ElementId String π) :=
  detour.loops ++ ⟨detour.edge, detour.far⟩ :: detour.farLoops

theorem distinct : (detour.steps.map fun step => step.rel.id).Nodup := by
  have isRange : detour.steps.map (fun step => step.rel.id) =
      (range' 1 (detour.front.length + (detour.back.length + 1))).map detour.name := by
    rw [steps, map_append, map_cons, loops, farLoops, ids_loopsAt, ids_loopsAt,
      ← range'_append_1, map_append, range'_succ, map_cons,
      Nat.add_comm 1 detour.front.length]
    rfl
  rw [isRange]
  exact List.Nodup.map detour.injective nodup_range'

variable {step : Crossing ElementId String π}

theorem named (isStep : step ∈ detour.steps) : ∃ n, step.rel.id = detour.name n := by
  have named (node : Node ElementId String π) (hops : List (Hop String)) (first : Nat)
      (isLoop : step ∈ loopsAt detour.name node hops first) : ∃ n, step.rel.id = detour.name n := by
    have isId := mem_map_of_mem (f := fun step => step.rel.id) isLoop
    rw [ids_loopsAt] at isId
    obtain ⟨n, _, isName⟩ := mem_map.mp isId
    exact ⟨n, isName.symm⟩
  rcases mem_append.mp isStep with isLoop | later
  · exact named _ _ _ isLoop
  · rcases mem_cons.mp later with rfl | isLoop
    · exact ⟨_, rfl⟩
    · exact named _ _ _ isLoop

theorem ends (isStep : step ∈ detour.steps) : step.rel.start ∈ [detour.near.id, detour.far.id] ∧
      step.rel.stop ∈ [detour.near.id, detour.far.id] := by
  rcases mem_append.mp isStep with isLoop | later
  · simp [ends_loopsAt isLoop]
  · rcases mem_cons.mp later with rfl | isLoop
    · simp only [edge]
      cases detour.forward <;> simp
    · simp [ends_loopsAt isLoop]

theorem loops_sublist : (detour.loops ++ detour.farLoops).Sublist detour.steps :=
  (List.Sublist.refl _).append (sublist_cons_self _ _)

def before : Graph π where
  nodes := [detour.near, detour.far]
  rels := detour.steps.map Crossing.rel
  distinctNodes := by simpa using detour.apart
  distinctRels := by simpa [map_map, Function.comp_def] using detour.distinct
  attached := by
    intro rel isRel
    obtain ⟨step, isStep, rfl⟩ := mem_map.mp isRel
    exact detour.ends isStep

def after : Graph π where
  nodes := [detour.near, detour.far]
  rels := (detour.loops ++ detour.farLoops).map Crossing.rel
  distinctNodes := by simpa using detour.apart
  distinctRels := by
    have sub := detour.loops_sublist.map fun step => step.rel.id
    simpa [map_map, Function.comp_def] using detour.distinct.sublist sub
  attached := by
    intro rel isRel
    obtain ⟨step, isStep, rfl⟩ := mem_map.mp isRel
    exact detour.ends (detour.loops_sublist.subset isStep)

theorem subset (isRel : rel ∈ detour.after.rels) : rel ∈ detour.before.rels :=
  map_subset _ detour.loops_sublist.subset isRel

theorem same_of_id (isRel : rel ∈ detour.before.rels) (isLater : later ∈ detour.after.rels)
    (sameId : rel.id = later.id) : rel = later :=
  inj_on_of_nodup_map detour.before.distinctRels isRel (detour.subset isLater) sameId

theorem evolves : Evolves detour.before detour.after := by
  intro rel isRel later isLater sameId
  obtain rfl := detour.same_of_id isRel isLater sameId
  exact ⟨rfl, rfl, rfl⟩

theorem isTrail (crosses : cross hop detour.edge detour.near.id = some detour.far.id) :
    detour.steps ∈ detour.before.trails (detour.front ++ hop :: detour.back) [] detour.near.id := by
  have present {step : Crossing ElementId String π} (isStep : step ∈ detour.steps) :
      step.rel ∈ detour.before.rels := mem_map_of_mem isStep
  refine mem_trails_of_isWalk (IsWalk.append ?_ ?_) detour.distinct (by simp)
  · exact isWalk_loopsAt mem_cons_self
      fun step isStep => present (mem_append_left _ isStep)
  · rw [loops, arrival_loopsAt]
    refine ⟨?_, mem_cons_of_mem _ mem_cons_self, crosses, ?_⟩
    · exact mem_map.mpr ⟨⟨detour.edge, detour.far⟩, mem_append_right _ mem_cons_self, rfl⟩
    · exact isWalk_loopsAt (mem_cons_of_mem _ mem_cons_self) fun step isStep =>
        present (mem_append_right _ (mem_cons_of_mem _ isStep))

theorem changeEvents_eq [DecidableEq π] (isEvent : ev ∈ changeEvents detour.before detour.after) :
    ev = relationshipEvent "d" detour.edge := by
  rcases mem_append.mp isEvent with isNode | isRel
  · rcases (mem_differences detour.after.distinctNodes).mp isNode with
      ⟨node, isNode, gone, _⟩ | ⟨node, isNode, later, isLater, sameId, differs, _⟩ |
      ⟨node, isNode, isNew, _⟩
    · exact absurd (mem_map_of_mem isNode) gone
    · have same := inj_on_of_nodup_map detour.after.distinctNodes isLater isNode sameId
      exact absurd same.symm differs
    · exact absurd (mem_map_of_mem isNode) isNew
  · rcases (mem_differences detour.after.distinctRels).mp isRel with
      ⟨rel, isRel, gone, isEvent⟩ | ⟨rel, isRel, later, isLater, sameId, differs, _⟩ |
      ⟨rel, isRel, isNew, _⟩
    · obtain ⟨step, isStep, rfl⟩ := mem_map.mp isRel
      have kept (isLoop : step ∈ detour.loops ++ detour.farLoops) : False :=
        gone (mem_map_of_mem (mem_map_of_mem isLoop))
      rcases mem_append.mp isStep with isLoop | later
      · exact (kept (mem_append_left _ isLoop)).elim
      · rcases mem_cons.mp later with rfl | isLoop
        · exact isEvent
        · exact (kept (mem_append_right _ isLoop)).elim
    · exact absurd (detour.same_of_id isRel isLater sameId.symm) differs
    · exact absurd (mem_map_of_mem (detour.subset isRel)) isNew

theorem stays (isMoved : moved ∈ detour.after.trails path [] detour.near.id) :
    arrival detour.near.id moved = detour.near.id := by
  refine arrival_of_loops ?_ isMoved
  intro rel isRel touches
  obtain ⟨step, isStep, rfl⟩ := mem_map.mp isRel
  rcases mem_append.mp isStep with isLoop | isLoop
  · exact ⟨(ends_loopsAt isLoop).1, (ends_loopsAt isLoop).2.1⟩
  · obtain ⟨isStart, isStop, _⟩ := ends_loopsAt isLoop
    rw [isStart, isStop] at touches
    exact absurd touches (by simp [detour.apart.symm])

/-- Where the names are new, the detour can arise in any graph. -/
theorem later (isFree : ∀ n, detour.name n ∉ startup.rels.map Relationship.id) :
    Later startup detour.before := by
  refine Relation.ReflTransGen.single fun rel isRel named isNamed sameId => ?_
  obtain ⟨step, isStep, rfl⟩ := mem_map.mp isNamed
  obtain ⟨n, isName⟩ := detour.named isStep
  have isTaken := mem_map_of_mem (f := Relationship.id) isRel
  rw [sameId, isName] at isTaken
  exact absurd isTaken (isFree n)

/-- The primary at the near end is missed if the table drops that end. -/
theorem not_complete [DecidableEq π] (labelled : spec.primaryLabel ∈ detour.near.labels)
    (isPath : detour.front ++ hop :: detour.back ∈ spec.paths)
    (crosses : cross hop detour.edge detour.near.id = some detour.far.id)
    (isEntry : hot.byRel detour.relType = some entry) (isHot : detour.near.id.val ∈ entry.eids)
    (isFar : entry.farSide = if detour.forward then .start else .stop)
    (avoids : ∀ n, detour.name n ≠ detour.near.id) :
    ¬ Complete spec hot detour.before detour.after (changeEvents detour.before detour.after) := by
  intro complete
  have isPrimary : IsPrimary spec detour.after detour.near.id :=
    ⟨detour.near, mem_cons_self, rfl, labelled⟩
  have gone : detour.steps ∉
      detour.after.trails (detour.front ++ hop :: detour.back) [] detour.near.id := by
    intro isKept
    obtain ⟨_, _, _, _, _, _, isRel, _⟩ := trail_split isKept
    obtain ⟨step, isStep, isEdge⟩ := mem_map.mp isRel
    have nodup := detour.distinct
    rw [steps, map_append, map_cons, nodup_middle, nodup_cons] at nodup
    refine nodup.1 ?_
    rw [← map_append, ← isEdge]
    exact mem_map_of_mem isStep
  have changed : Changed spec detour.before detour.after detour.near.id := by
    refine ⟨_, isPath, (detour.near, detour.steps), fun same => gone ?_⟩
    exact (mem_matchesOf.mp (same.mp (mem_matchesOf.mpr
      ⟨mem_cons_self, rfl, labelled, detour.isTrail crosses⟩))).2.2.2
  obtain ⟨node, isNode, sameId⟩ := mem_map.mp (complete _ isPrimary changed)
  rw [mem_filter, decide_eq_true_eq] at isNode
  obtain ⟨_, _, branch, _, moved, isMoved, isAnchor⟩ := isNode
  rw [sameId] at isMoved isAnchor
  rw [detour.stays isMoved, Finset.mem_sort, (mem_affectedBy spec hot _ _).1] at isAnchor
  obtain ⟨ev, isEvent, isAnchor⟩ := isAnchor
  rw [detour.changeEvents_eq isEvent] at isAnchor
  refine not_anchor_of_far_end isEntry isHot ?_ (avoids _) isAnchor
  simp only [edge]
  cases isForward : detour.forward with
  | true => exact .inr ⟨by simpa [isForward] using isFar, rfl, detour.apart.symm⟩
  | false => exact .inl ⟨by simpa [isForward] using isFar, rfl, detour.apart.symm⟩

/-- The detour from a primary over a relationship whose far side, as the table has it, is the
    primary's. -/
def through [Inhabited π] (id : ElementId) (primaryLabel : String) (name : Nat → ElementId)
    (injective : Function.Injective name) (apart : id ≠ name 0) (front back : List (Hop String))
    (relType : String) (farSide : FarSide) : Detour π where
  name := name
  injective := injective
  near := ⟨id, [primaryLabel], default⟩
  far := ⟨name 0, [], default⟩
  apart := apart
  front := front
  back := back
  relType := relType
  forward := farSide = .start

end Detour

theorem exists_names {taken : Set ElementId} (finite : taken.Finite) :
    ∃ name : Nat → ElementId, Function.Injective name ∧ ∀ n, name n ∉ taken := by
  have : Infinite ElementId := (Set.finite_singleton "").infinite_compl.to_subtype
  have free := finite.infinite_compl
  refine ⟨fun n => free.natEmbedding _ n, ?_, fun n => (free.natEmbedding _ n).property⟩
  exact fun m n same => (free.natEmbedding _).injective (Subtype.ext same)

theorem cross_astray {detour : Detour π} (isType : detour.relType ∈ hop.relTypes)
    (astray : farSideOf hop.direction ≠ some farSide)
    (isForward : detour.forward = decide (farSide = .start)) :
    cross hop detour.edge detour.near.id = some detour.far.id := by
  rw [cross, if_pos (show detour.edge.type ∈ hop.relTypes from isType)]
  simp only [Detour.edge, isForward]
  cases farSide with
  | start =>
    cases direction : hop.direction with
    | out | undirected => simp
    | into => exact absurd (by rw [direction]; rfl) astray
  | stop =>
    cases direction : hop.direction with
    | out => exact absurd (by rw [direction]; rfl) astray
    | into | undirected => simp [detour.apart.symm]

end

/-- The fan-out selects every primary that a transaction changes, whatever the graph has become
    since startup, exactly if every hop of every path has the orientation that the table has for
    its types. -/
theorem recomposition_complete_iff [DecidableEq π] [Inhabited π] (spec : DenormalizeSpec π δ)
    (bounded : ∀ path ∈ spec.paths, path.length ≤ spec.fanOutMaxHops) (startup : Graph π)
    (threshold : Nat) :
    (∀ before after events, Later startup before → Evolves before after →
      events.Perm (changeEvents before after) →
      Complete spec (computeForSpec startup spec threshold) before after events) ↔
    Oriented spec (computeForSpec startup spec threshold) := by
  constructor
  · intro complete path isPath hop isHop relType isType entry isEntry
    by_contra astray
    obtain ⟨front, back, rfl⟩ := append_of_mem isHop
    obtain ⟨id, isHot⟩ := computeForSpec_named startup spec threshold relType entry isEntry
    obtain ⟨name, injective, avoids⟩ :=
      exists_names ((startup.rels.map Relationship.id).toFinset.finite_toSet.insert id)
    have isFree (n : Nat) : name n ≠ id ∧ name n ∉ startup.rels.map Relationship.id := by
      simpa only [Set.mem_insert_iff, Finset.mem_coe, mem_toFinset, not_or] using avoids n
    let detour : Detour π := Detour.through id spec.primaryLabel name injective
      (isFree 0).1.symm front back relType entry.farSide
    refine detour.not_complete (mem_singleton.mpr rfl) isPath (cross_astray isType astray rfl)
      isEntry isHot ?_ (fun n => (isFree n).1) (complete detour.before detour.after _
        (detour.later fun n => (isFree n).2) detour.evolves (List.Perm.refl _))
    change entry.farSide = if decide (entry.farSide = .start) = true then .start else .stop
    cases entry.farSide <;> rfl
  · intro oriented before after events _ evolves isReport
    exact complete_of_oriented bounded oriented evolves isReport

/-- The documents of people; their content plays no role. -/
def people (paths : List (List (Hop String))) : DenormalizeSpec Unit Unit :=
  ⟨"Person", "people", paths, 2, fun _ _ => ()⟩

def knows (direction : Direction) : Hop String := ⟨direction, ["KNOWS"], by decide⟩

def person (id : ElementId) : Node ElementId String Unit := ⟨id, ["Person"], ()⟩

def acquainted : Graph Unit where
  nodes := [person ⟨"a", by decide⟩, person ⟨"b", by decide⟩]
  rels := [⟨⟨"k", by decide⟩, "KNOWS", ⟨"a", by decide⟩, ⟨"b", by decide⟩, ()⟩]
  distinctNodes := by decide
  distinctRels := by decide
  attached := by decide

def estranged : Graph Unit := ⟨acquainted.nodes, [], by decide, by decide, by decide⟩

/-- With the one path to those whom a person knows, the table drops them, and no document is
    missed. -/
theorem recomposition_complete_iff_knows :
    (∀ path ∈ (people [[knows .out]]).paths, path.length ≤ (people [[knows .out]]).fanOutMaxHops) ∧
    ∀ before after events, Later acquainted before → Evolves before after →
      events.Perm (changeEvents before after) →
      Complete (people [[knows .out]]) (computeForSpec acquainted (people [[knows .out]]) 100)
        before after events := by
  refine ⟨by decide, (recomposition_complete_iff _ (by decide) _ _).mpr ?_⟩
  have far : ((computeForSpec acquainted (people [[knows .out]]) 100).byRel "KNOWS").map
      HotRel.farSide = some .stop := by decide +kernel
  intro path isPath hop isHop relType isType entry isEntry
  obtain rfl := mem_singleton.mp isPath
  obtain rfl := mem_singleton.mp isHop
  obtain rfl := mem_singleton.mp isType
  rw [isEntry] at far
  exact far.symm

/-- A second path asks for acquaintances either way. The table drops the known person from the
    relationship's events, and the document of that person is not composed again when it is
    deleted. -/
theorem undirected_path_is_missed : Evolves acquainted estranged ∧
    ¬ Complete (people [[knows .out], [knows .undirected]])
      (computeForSpec acquainted (people [[knows .out], [knows .undirected]]) 100)
      acquainted estranged (changeEvents acquainted estranged) := by
  refine ⟨fun rel _ later isLater => absurd isLater not_mem_nil, fun complete => ?_⟩
  have isSelected := complete ⟨"b", by decide⟩ ⟨person ⟨"b", by decide⟩, by decide, rfl, by decide⟩
    ⟨[knows .undirected], by decide, (person ⟨"b", by decide⟩,
      [⟨⟨⟨"k", by decide⟩, "KNOWS", ⟨"a", by decide⟩, ⟨"b", by decide⟩, ()⟩,
        person ⟨"a", by decide⟩⟩]), by decide +kernel⟩
  have anchors : (affectedBy (people [[knows .out], [knows .undirected]])
      (computeForSpec acquainted (people [[knows .out], [knows .undirected]]) 100)
      (changeEvents acquainted estranged)).recompose = {"k", "a"} := by decide +kernel
  have same (eid : String) : eid ∈ ({"k", "a"} : Finset String).sort (· ≤ ·) ↔ eid ∈ ["k", "a"] := by
    simp
  rw [anchorEids, anchors, selectPrimaries_congr same] at isSelected
  revert isSelected
  decide +kernel

end Ventstream.Neo4j

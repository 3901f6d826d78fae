import Ventstream.Library.Keyset
import Ventstream.Library.Program

/-! # Walking a set page by page

A page of a set is an ascending run of its members past the cursor, such that a
member left out lies past the whole page. Two ways to compute one are merging
two ascending lists up to a limit, and collecting the members of many lists in a
set that never holds more than the limit.

Walking from page to page, with the last member of each page as the next cursor,
visits every member. A program that walks may change the state between two
pages, as long as it leaves the set alone.
-/

namespace Ventstream.Library

open List

universe u

variable {κ : Type u} [LinearOrder κ]

/-- An ascending run of members past the cursor, with no gap before its end. -/
structure IsPage (Member : κ → Prop) (cursor : Option κ) (rows : List κ) : Prop where
  sorted : rows.Pairwise (· < ·)
  sound : ∀ row ∈ rows, Member row ∧ Past cursor row
  complete : ∀ row, Member row → Past cursor row →
    row ∈ rows ∨ rows ≠ [] ∧ ∀ earlier ∈ rows, earlier < row

/-- Merge two ascending lists, dropping duplicates, up to a limit. -/
def mergeUpTo : Nat → List κ → List κ → List κ
  | 0, _, _ => []
  | limit + 1, [], right => right.take (limit + 1)
  | limit + 1, left, [] => left.take (limit + 1)
  | limit + 1, x :: left, y :: right =>
    match compare x y with
    | .lt => x :: mergeUpTo limit left (y :: right)
    | .gt => y :: mergeUpTo limit (x :: left) right
    | .eq => x :: mergeUpTo limit left right

theorem mem_of_mem_mergeUpTo {limit : Nat} {left right : List κ} {row : κ}
    (mem : row ∈ mergeUpTo limit left right) : row ∈ left ∨ row ∈ right := by
  fun_induction mergeUpTo limit left right <;> grind

theorem mergeUpTo_sorted {limit : Nat} {left right : List κ} (leftSorted : left.Pairwise (· < ·))
    (rightSorted : right.Pairwise (· < ·)) : (mergeUpTo limit left right).Pairwise (· < ·) := by
  fun_induction mergeUpTo limit left right with
  | case1 => exact List.Pairwise.nil
  | case2 => exact rightSorted.sublist (take_sublist _ _)
  | case3 => exact leftSorted.sublist (take_sublist _ _)
  | case4 limit x left y right before ih =>
    rw [compare_lt_iff_lt] at before
    simp only [pairwise_cons] at leftSorted rightSorted ⊢
    refine ⟨fun row mem => ?_, ih leftSorted.2 (pairwise_cons.mpr rightSorted)⟩
    have origin := mem_of_mem_mergeUpTo mem
    grind
  | case5 limit x left y right after ih =>
    rw [compare_gt_iff_gt] at after
    simp only [pairwise_cons] at leftSorted rightSorted ⊢
    refine ⟨fun row mem => ?_, ih (pairwise_cons.mpr leftSorted) rightSorted.2⟩
    have origin := mem_of_mem_mergeUpTo mem
    grind
  | case6 limit x left y right same ih =>
    simp only [pairwise_cons] at leftSorted rightSorted ⊢
    refine ⟨fun row mem => ?_, ih leftSorted.2 rightSorted.2⟩
    have origin := mem_of_mem_mergeUpTo mem
    grind

theorem mem_take_or_past {rows : List κ} (sorted : rows.Pairwise (· < ·)) (limit : Nat)
    (mem : row ∈ rows) :
    row ∈ rows.take limit ∨
      (rows.take limit).length = limit ∧ ∀ earlier ∈ rows.take limit, earlier < row := by
  rw [← take_append_drop limit rows] at mem sorted
  rw [pairwise_append] at sorted
  rcases mem_append.mp mem with kept | dropped
  · exact .inl kept
  · have nonempty := length_pos_of_mem dropped
    rw [length_drop] at nonempty
    exact .inr ⟨length_take_of_le (by omega),
      fun earlier kept => sorted.2.2 earlier kept row dropped⟩

theorem mem_mergeUpTo_or_past {limit} {left right : List κ} {row}
    (leftSorted : left.Pairwise (· < ·)) (rightSorted : right.Pairwise (· < ·))
    (mem : row ∈ left ∨ row ∈ right) :
    row ∈ mergeUpTo limit left right ∨
      ∀ earlier ∈ mergeUpTo limit left right, earlier < row := by
  fun_induction mergeUpTo limit left right with
  | case1 => simp
  | case2 limit right =>
    have onRight : row ∈ right := by simpa using mem
    exact (mem_take_or_past rightSorted _ onRight).imp_right And.right
  | case3 limit left =>
    have onLeft : row ∈ left := by simpa using mem
    exact (mem_take_or_past leftSorted _ onLeft).imp_right And.right
  | case4 limit x left y right before ih =>
    rw [compare_lt_iff_lt] at before
    simp only [pairwise_cons] at leftSorted rightSorted
    have rest := ih leftSorted.2 (pairwise_cons.mpr rightSorted)
    grind
  | case5 limit x left y right after ih =>
    rw [compare_gt_iff_gt] at after
    simp only [pairwise_cons] at leftSorted rightSorted
    have rest := ih (pairwise_cons.mpr leftSorted) rightSorted.2
    grind
  | case6 limit x left y right same ih =>
    rw [compare_eq_iff_eq] at same
    simp only [pairwise_cons] at leftSorted rightSorted
    grind

theorem mergeUpTo_ne_nil {limit : Nat} {left right : List κ} {row : κ} (positive : 0 < limit)
    (mem : row ∈ left ∨ row ∈ right) : mergeUpTo limit left right ≠ [] := by
  fun_cases mergeUpTo limit left right with
  | case1 => omega
  | case2 limit => cases right <;> simp at mem ⊢
  | case3 limit => cases left <;> simp at mem ⊢
  | case4 | case5 | case6 => simp

theorem length_mergeUpTo_le {left right : List κ} :
    (mergeUpTo limit left right).length ≤ limit := by
  fun_induction mergeUpTo limit left right <;> grind

/-- Insert into an ascending list; a member stays where it is. -/
def insertAscending (row : κ) : List κ → List κ
  | [] => [row]
  | head :: rest =>
    match compare row head with
    | .lt => row :: head :: rest
    | .eq => head :: rest
    | .gt => head :: insertAscending row rest

/-- Insert into a set of at most `limit` members; the greatest goes first. -/
def insertUpTo (limit : Nat) (rows : List κ) (row : κ) : List κ :=
  (insertAscending row rows).take limit

/-- The least members of many ascending lists, looking at no more than `limit` of each. -/
def collectUpTo (limit : Nat) (buckets : List (List κ)) : List κ :=
  (buckets.flatMap (·.take limit)).foldl (insertUpTo limit) []

theorem mem_insertAscending {row other : κ} {rows : List κ} :
    other ∈ insertAscending row rows ↔ other = row ∨ other ∈ rows := by
  fun_induction insertAscending row rows with
  | case1 => simp
  | case2 => simp
  | case3 head rest same =>
    rw [compare_eq_iff_eq] at same
    simp [same]
  | case4 head rest after ih =>
    simp only [mem_cons, ih]
    tauto

theorem insertAscending_sorted {row : κ} {rows : List κ} (sorted : rows.Pairwise (· < ·)) :
    (insertAscending row rows).Pairwise (· < ·) := by
  fun_induction insertAscending row rows with
  | case1 => simp
  | case2 head rest before =>
    rw [compare_lt_iff_lt] at before
    grind
  | case3 => exact sorted
  | case4 head rest after ih =>
    rw [compare_gt_iff_gt] at after
    simp only [pairwise_cons] at sorted ⊢
    refine ⟨fun other mem => ?_, ih sorted.2⟩
    rcases mem_insertAscending.mp mem with rfl | later
    · exact after
    · exact sorted.1 other later

/-- Forgetting what lies past the limit before an insertion does not show after it. -/
theorem take_insertAscending (row : κ) (rows : List κ) (limit : Nat) :
    (insertAscending row (rows.take limit)).take limit =
      (insertAscending row rows).take limit := by
  induction rows generalizing limit with
  | nil => simp
  | cons head rest ih =>
    cases limit with
    | zero => simp
    | succ limit =>
      simp only [take_succ_cons, insertAscending]
      cases compare row head with
      | lt => cases limit <;> simp [take_take]
      | eq => simp [take_take]
      | gt => simp [ih]

theorem foldl_insertUpTo (limit : Nat) (items rows : List κ) :
    items.foldl (insertUpTo limit) (rows.take limit) =
      (items.foldl (fun known row => insertAscending row known) rows).take limit := by
  induction items generalizing rows with
  | nil => rfl
  | cons item rest ih =>
    simp only [foldl_cons, insertUpTo, take_insertAscending]
    exact ih (insertAscending item rows)

theorem foldl_insertAscending_sorted {items rows : List κ} (sorted : rows.Pairwise (· < ·)) :
    (items.foldl (fun known row => insertAscending row known) rows).Pairwise (· < ·) := by
  induction items generalizing rows with
  | nil => exact sorted
  | cons item rest ih => exact ih (insertAscending_sorted sorted)

theorem mem_foldl_insertAscending {row : κ} {items rows : List κ} :
    row ∈ items.foldl (fun known row => insertAscending row known) rows ↔
      row ∈ items ∨ row ∈ rows := by
  induction items generalizing rows with
  | nil => simp
  | cons item rest ih =>
    simp only [foldl_cons, ih, mem_insertAscending, mem_cons]
    tauto

/-- `collectUpTo` without the bound: all members that are looked at. -/
def collectAll (limit : Nat) (buckets : List (List κ)) : List κ :=
  (buckets.flatMap (·.take limit)).foldl (fun known row => insertAscending row known) []

theorem collectUpTo_eq (limit : Nat) (buckets : List (List κ)) :
    collectUpTo limit buckets = (collectAll limit buckets).take limit := by
  unfold collectUpTo collectAll
  rw [← foldl_insertUpTo, take_nil]

theorem collectAll_sorted (limit : Nat) (buckets : List (List κ)) :
    (collectAll limit buckets).Pairwise (· < ·) :=
  foldl_insertAscending_sorted List.Pairwise.nil

theorem mem_collectAll {limit : Nat} {buckets : List (List κ)} {row : κ} :
    row ∈ collectAll limit buckets ↔ ∃ bucket ∈ buckets, row ∈ bucket.take limit := by
  simp [collectAll, mem_foldl_insertAscending]

/-- When the limit's worth of members lie before a row, the first ones do. -/
theorem take_lt_of_crowded {rows early : List κ} (sorted : rows.Pairwise (· < ·))
    (absent : row ∉ rows) (distinct : early.Nodup) (crowded : early.length = limit)
    (known : ∀ other ∈ early, other ∈ rows ∧ other < row) :
    ∀ first ∈ rows.take limit, first < row := by
  intro first kept
  by_contra above
  have other : first ≠ row := fun same => absent (same ▸ mem_of_mem_take kept)
  have greater : row < first := lt_of_le_of_ne (not_lt.mp above) other.symm
  -- Everything in `early` would come before `first`, and so be kept as well.
  have kept_early : ∀ other ∈ first :: early, other ∈ rows.take limit := by
    intro other mem
    rcases mem_cons.mp mem with rfl | mem
    · exact kept
    · rcases mem_take_or_past sorted limit (known other mem).1 with kept | ⟨_, past⟩
      · exact kept
      · exact absurd (past first kept) (lt_asymm (lt_trans (known other mem).2 greater))
  have fresh : (first :: early).Nodup :=
    nodup_cons.mpr ⟨fun mem => lt_asymm (known first mem).2 greater, distinct⟩
  have fits := (fresh.subperm kept_early).length_le
  have bounded := length_take_le limit rows
  simp only [length_cons] at fits
  omega

theorem isPage_mergeUpTo {left right : List κ} {limit : Nat} (cursor : Option κ)
    (positive : 0 < limit) (leftSorted : left.Pairwise (· < ·))
    (rightSorted : right.Pairwise (· < ·)) :
    IsPage (fun row => row ∈ left ∨ row ∈ right) cursor
      (mergeUpTo limit (left.filter fun row => Past cursor row)
        (right.filter fun row => Past cursor row)) := by
  refine ⟨mergeUpTo_sorted (leftSorted.filter _) (rightSorted.filter _), ?_, ?_⟩
  · intro row mem
    have origin := mem_of_mem_mergeUpTo mem
    simp only [mem_filter, decide_eq_true_eq] at origin
    tauto
  · intro row mem past
    have origin : row ∈ left.filter (fun row => Past cursor row) ∨
        row ∈ right.filter (fun row => Past cursor row) := by
      simpa [past] using mem
    have nonempty := mergeUpTo_ne_nil positive origin
    have placed := @mem_mergeUpTo_or_past _ _ limit _ _ row (leftSorted.filter _)
      (rightSorted.filter _) origin
    tauto

theorem isPage_collectUpTo {buckets : List (List κ)} {limit : Nat} (cursor : Option κ)
    (positive : 0 < limit) (sorted : ∀ bucket ∈ buckets, bucket.Pairwise (· < ·)) :
    IsPage (fun row => ∃ bucket ∈ buckets, row ∈ bucket) cursor
      (collectUpTo limit (buckets.map (·.filter fun row => Past cursor row))) := by
  rw [collectUpTo_eq]
  have ascending := collectAll_sorted limit (buckets.map (·.filter fun row => Past cursor row))
  refine ⟨ascending.sublist (take_sublist _ _), ?_, ?_⟩
  · intro row mem
    obtain ⟨bucket, inBuckets, inBucket⟩ := mem_collectAll.mp (mem_of_mem_take mem)
    obtain ⟨whole, inWhole, rfl⟩ := mem_map.mp inBuckets
    have kept := mem_of_mem_take inBucket
    simp only [mem_filter, decide_eq_true_eq] at kept
    exact ⟨⟨whole, inWhole, kept.1⟩, kept.2⟩
  · rintro row ⟨whole, inWhole, mem⟩ past
    have bucketSorted := (sorted whole inWhole).filter fun row => Past cursor row
    have inBucket : row ∈ whole.filter fun row => Past cursor row := by
      simpa using ⟨mem, past⟩
    have looked : ∀ other ∈ (whole.filter fun row => Past cursor row).take limit,
        other ∈ collectAll limit (buckets.map (·.filter fun row => Past cursor row)) :=
      fun other taken => mem_collectAll.mpr ⟨_, mem_map_of_mem inWhole, taken⟩
    have nonempty : (collectAll limit (buckets.map (·.filter fun row => Past cursor row))).take
        limit ≠ [] := by
      have taken : (whole.filter fun row => Past cursor row).take limit ≠ [] := by
        rw [Ne, take_eq_nil_iff, not_or]
        exact ⟨by omega, ne_nil_of_mem inBucket⟩
      obtain ⟨first, isFirst⟩ := exists_mem_of_ne_nil _ taken
      rw [Ne, take_eq_nil_iff, not_or]
      exact ⟨by omega, ne_nil_of_mem (looked first isFirst)⟩
    by_cases seen : row ∈ collectAll limit (buckets.map (·.filter fun row => Past cursor row))
    · rcases mem_take_or_past ascending limit seen with kept | ⟨_, beyond⟩
      · exact .inl kept
      · exact .inr ⟨nonempty, beyond⟩
    · -- The row was not looked at, so its own bucket fills the limit before it.
      obtain ⟨full, beyond⟩ := (mem_take_or_past bucketSorted limit inBucket).resolve_left
        fun taken => seen (looked row taken)
      exact .inr ⟨nonempty, take_lt_of_crowded ascending seen
        ((bucketSorted.imp fun less => ne_of_lt less).sublist (take_sublist _ _)) full
        fun other taken => ⟨looked other taken, beyond other taken⟩⟩

section

/-- The pages of a walk: the last row of a page is the cursor of the next. -/
def pages (fetch : Option κ → List κ) : Nat → Option κ → List (List κ)
  | 0, _ => []
  | fuel + 1, cursor =>
    match (fetch cursor).getLast? with
    | none => []
    | some last => fetch cursor :: pages fetch fuel (some last)

variable {Member : κ → Prop} {fetch : Option κ → List κ}

omit [LinearOrder κ] in
theorem length_le_of_mem_pages (short : ∀ cursor, (fetch cursor).length ≤ limit)
    (onWalk : rows ∈ pages fetch fuel cursor) : rows.length ≤ limit := by
  induction fuel generalizing cursor with
  | zero => cases onWalk
  | succ fuel ih =>
    unfold pages at onWalk
    split at onWalk
    · cases onWalk
    · cases onWalk with
      | head => exact short cursor
      | tail _ later => exact ih later

/-- With fuel for every member past the cursor, a walk visits each of them once and in order. -/
theorem pages_exact (isPage : ∀ cursor, IsPage Member cursor (fetch cursor)) {all : List κ}
    (listed : ∀ row, Member row → row ∈ all)
    (enough : (all.filter fun row => Past cursor row).length < fuel) :
    (pages fetch fuel cursor).flatten.Pairwise (· < ·) ∧
      (∀ row, row ∈ (pages fetch fuel cursor).flatten ↔ Member row ∧ Past cursor row) ∧
      pages fetch (fuel + 1) cursor = pages fetch fuel cursor := by
  induction fuel generalizing cursor with
  | zero => omega
  | succ fuel ih =>
    have page := isPage cursor
    cases atEnd : (fetch cursor).getLast? with
    | none =>
      have ended (fuel : Nat) : pages fetch (fuel + 1) cursor = [] := by rw [pages, atEnd]
      rw [ended, ended]
      rw [getLast?_eq_none_iff] at atEnd
      refine ⟨List.Pairwise.nil, fun row => iff_of_false not_mem_nil ?_, rfl⟩
      rintro ⟨member, past⟩
      rcases page.complete row member past with onPage | ⟨nonempty, _⟩
      · rw [atEnd] at onPage
        cases onPage
      · exact nonempty atEnd
    | some last =>
      have next (fuel : Nat) : pages fetch (fuel + 1) cursor =
          fetch cursor :: pages fetch fuel (some last) := by rw [pages, atEnd]
      have onPage := mem_of_getLast? atEnd
      have lastIn := page.sound last onPage
      have fewer : (all.filter fun row => Past (some last) row).length < fuel := by
        have shorter := length_filter_past_lt lastIn.2 (listed last lastIn.1)
        omega
      obtain ⟨sorted, members, stable⟩ := ih fewer
      have upToLast : ∀ row ∈ fetch cursor, row ≤ last := by
        obtain ⟨front, split⟩ := getLast?_eq_some_iff.mp atEnd
        have ascending := page.sorted
        grind
      simp only [next, flatten_cons, mem_append, pairwise_append, members, past_some,
        stable, and_true]
      refine ⟨⟨page.sorted, sorted, ?_⟩, fun row => ⟨?_, ?_⟩⟩
      · exact fun row here other later => lt_of_le_of_lt (upToLast row here) later.2
      · rintro (here | ⟨member, beyond⟩)
        · exact page.sound row here
        · exact ⟨member, fun bound isBound => lt_trans (lastIn.2 bound isBound) beyond⟩
      · rintro ⟨member, past⟩
        exact (page.complete row member past).imp_right fun later =>
          ⟨member, later.2 last onPage⟩

/-- Any fuel above the bound gives the same walk, on which every member is visited once, in
    ascending order and in pages of no more than the limit. -/
def VisitsOnce (Member : κ → Prop) (fetch : Option κ → List κ) (limit bound : Nat) : Prop :=
  ∃ walk, (∀ fuel, bound < fuel → pages fetch fuel none = walk) ∧
    walk.flatten.Pairwise (· < ·) ∧ (∀ row, row ∈ walk.flatten ↔ Member row) ∧
    ∀ rows ∈ walk, rows.length ≤ limit

theorem VisitsOnce.mem_pages (visits : VisitsOnce Member fetch limit bound) (above : bound < fuel) :
    (∃ rows ∈ pages fetch fuel none, row ∈ rows) ↔ Member row := by
  obtain ⟨walk, same, -, members, -⟩ := visits
  rw [same fuel above, ← members, mem_flatten]

theorem visitsOnce_of_isPage (isPage : ∀ cursor, IsPage Member cursor (fetch cursor))
    (short : ∀ cursor, (fetch cursor).length ≤ limit) {all : List κ}
    (listed : ∀ row, Member row → row ∈ all) : VisitsOnce Member fetch limit all.length := by
  have enough {fuel : Nat} (above : all.length < fuel) :
      (all.filter fun row => Past (none : Option κ) row).length < fuel :=
    lt_of_le_of_lt (length_filter_le _ _) above
  have walk := pages_exact isPage listed (enough (Nat.lt_succ_self _))
  refine ⟨_, fun fuel above => ?_, walk.1, fun row => ?_, fun rows => length_le_of_mem_pages short⟩
  · induction above with
    | refl => rfl
    | step above ih => exact (pages_exact isPage listed (enough above)).2.2.trans ih
  · rw [walk.2.1 row, and_iff_left (past_none row)]

end

namespace Program

variable {ε σ : Type u}

/-- Run `body` on one page after the other, reading each page from the state reached by then. -/
def walk (fetch : σ → Option κ → List κ) (body : List κ → Program ε σ PUnit) :
    Nat → Option κ → Program ε σ PUnit
  | 0, _ => pure ⟨⟩
  | fuel + 1, cursor => do
      let rows ← read fun state => fetch state cursor
      match rows.getLast? with
      | none => pure ⟨⟩
      | some last => do
          body rows
          walk fetch body fuel (some last)

omit [LinearOrder κ] in
theorem Triple.walk {inv : σ → Prop} {stop : ε → σ → Prop} {fetch : σ → Option κ → List κ}
    {body : List κ → Program ε σ PUnit} (kept : ∀ rows, Triple inv (body rows) (fun _ => inv) stop)
    {fuel : Nat} {cursor : Option κ} :
    Triple inv (walk fetch body fuel cursor) (fun _ => inv) stop := by
  induction fuel generalizing cursor with
  | zero => exact Triple.done _
  | succ fuel ih =>
    unfold Program.walk
    refine Triple.bind (Triple.look _) fun rows => ?_
    split
    · exact Triple.done _
    · exact Triple.bind (kept rows) fun _ => ih

omit [LinearOrder κ] in
theorem exec_walk
    (kept : ∀ rows, Ensures (fun before after => fetch after = fetch before) (body rows))
    (fuel : Nat) (cursor : Option κ) (state : σ) :
    exec (walk fetch body fuel cursor) state =
      exec (each body (pages (fetch state) fuel cursor)) state := by
  induction fuel generalizing cursor state with
  | zero => rfl
  | succ fuel ih =>
    rw [walk, exec_bind, exec_read, pages]
    simp only
    cases (fetch state cursor).getLast? with
    | none => rfl
    | some last =>
      simp only [exec_bind, exec_each_cons]
      have same := kept (fetch state cursor) state
      cases ran : exec (body (fetch state cursor)) state with
      | mk result later =>
        rw [ran] at same
        cases result with
        | error error => rfl
        | ok value =>
          simp only
          rw [ih, same]

end Program

end Ventstream.Library

import Mathlib

/-! # A value with a version stamp

A write with a version is taken unless the cell has a higher stamp; one without a version
is always taken and leaves the stamp. After a list of writes the stamp is the highest
version, and the value is that of the last write without a version or with the highest
one. The list can therefore be written again, whole, with no effect.
-/

namespace Ventstream.Library.VersionedCell

open List

/-- What a write brings: its version, if it has one, and the value. -/
structure Write (β : Type) where
  version : Option ℕ
  value : β

structure Cell (σ β : Type) where
  stamp : σ
  value : β

variable {σ β : Type} (floor : σ → WithBot ℕ) (stampOf : ℕ → σ)

/-- Whether the write is not below the stamp. -/
def Taken (stamp : σ) (write : Write β) : Prop :=
  ∀ version, write.version = some version → floor stamp ≤ WithBot.some version

/-- The stamp that a write leaves when it is taken. -/
def restamp (stamp : σ) (write : Write β) : σ :=
  match write.version with
  | none => stamp
  | some version => stampOf version

open Classical in
noncomputable def put (cell : Cell σ β) (write : Write β) : Cell σ β :=
  if Taken floor cell.stamp write then ⟨restamp stampOf cell.stamp write, write.value⟩ else cell

noncomputable def putAll (cell : Cell σ β) (writes : List (Write β)) : Cell σ β :=
  writes.foldl (put floor stampOf) cell

/-- The highest of a bound and the versions of some writes. -/
def top (bound : WithBot ℕ) (writes : List (Write β)) : WithBot ℕ :=
  writes.foldl (fun bound write => bound ⊔ (write.version : WithBot ℕ)) bound

/-- The write is without a version, or has this one. -/
def Settles (bound : WithBot ℕ) (write : Write β) : Prop :=
  ∀ version, write.version = some version → WithBot.some version = bound

open Classical in
/-- The value of the last write that counts. -/
noncomputable def settled (bound : WithBot ℕ) (writes : List (Write β)) (value : β) : β :=
  ((writes.filter fun write => Settles bound write).getLast?.map (·.value)).getD value

/-- The stamp that the highest version leaves, if a write has it. -/
def stamped (bound : WithBot ℕ) (writes : List (Write β)) (stamp : σ) : σ :=
  match bound with
  | none => stamp
  | some version =>
    if writes.any fun write => write.version == some version then stampOf version else stamp

variable {floor stampOf} {cell : Cell σ β} {write : Write β} {writes : List (Write β)}
  {bound : WithBot ℕ} {version : ℕ} {stamp : σ} {value : β}

theorem top_concat : top bound (writes ++ [write]) =
    top bound writes ⊔ (write.version : WithBot ℕ) := by
  simp [top]

theorem le_top : bound ≤ top bound writes := by
  induction writes using reverseRecOn with
  | nil => exact le_refl _
  | append_singleton writes write ih =>
    rw [top_concat]
    exact ih.trans le_sup_left

theorem version_le_top (mem : write ∈ writes) (isVersion : write.version = some version) :
    WithBot.some version ≤ top bound writes := by
  induction writes using reverseRecOn with
  | nil => cases mem
  | append_singleton writes last ih =>
    rw [top_concat]
    rcases mem_append.mp mem with earlier | isLast
    · exact (ih earlier).trans le_sup_left
    · obtain rfl := mem_singleton.mp isLast
      rw [isVersion]
      exact le_sup_right

theorem top_eq_of_le (below : ∀ write ∈ writes, ∀ version, write.version = some version →
    WithBot.some version ≤ bound) : top bound writes = bound := by
  induction writes using reverseRecOn with
  | nil => rfl
  | append_singleton writes last ih =>
    rw [top_concat, ih fun write mem => below write (mem_append_left _ mem)]
    refine sup_eq_left.mpr ?_
    cases isVersion : last.version with
    | none => exact bot_le
    | some version => exact below last (by simp) version isVersion

theorem stamped_of_mem (mem : write ∈ writes) (isVersion : write.version = some version) :
    stamped stampOf (WithBot.some version) writes stamp = stampOf version :=
  if_pos (any_eq_true.mpr ⟨write, mem, by simp [isVersion]⟩)

/-- A write that does not have the version changes nothing about who left the stamp. -/
theorem stamped_concat_of_ne
    (other : ∀ version, write.version = some version → WithBot.some version ≠ bound) :
    stamped stampOf bound (writes ++ [write]) stamp = stamped stampOf bound writes stamp := by
  cases bound with
  | bot => rfl
  | coe version =>
    have unlike : (write.version == some version) = false := by
      rw [beq_eq_false_iff_ne]
      exact fun isVersion => other version isVersion rfl
    have same : ((writes ++ [write]).any fun item => item.version == some version) =
        writes.any fun item => item.version == some version := by
      rw [any_append, any_cons, unlike, any_nil, Bool.or_false, Bool.or_false]
    change (if _ then _ else _) = if _ then _ else _
    rw [same]

theorem settled_concat_of_settles (settles : Settles bound write) :
    settled bound (writes ++ [write]) value = write.value := by
  simp [settled, settles]

theorem settled_concat_of_not (unsettled : ¬ Settles bound write) :
    settled bound (writes ++ [write]) value = settled bound writes value := by
  simp [settled, unsettled]

theorem stamped_stamped : stamped stampOf bound writes (stamped stampOf bound writes stamp) =
    stamped stampOf bound writes stamp := by
  cases bound with
  | bot => rfl
  | coe version =>
    change (if _ then _ else if _ then _ else _) = if _ then _ else _
    split <;> rfl

theorem settled_settled : settled bound writes (settled bound writes value) =
    settled bound writes value := by
  unfold settled
  cases (writes.filter _).getLast? <;> rfl

/-- What a cell holds after a list of writes. -/
theorem putAll_eq (floor_stampOf : ∀ version, floor (stampOf version) = WithBot.some version) :
    putAll floor stampOf cell writes =
      ⟨stamped stampOf (top (floor cell.stamp) writes) writes cell.stamp,
        settled (top (floor cell.stamp) writes) writes cell.value⟩ ∧
    floor (putAll floor stampOf cell writes).stamp = top (floor cell.stamp) writes := by
  induction writes using reverseRecOn with
  | nil =>
    have unstamped : stamped stampOf (floor cell.stamp) ([] : List (Write β)) cell.stamp =
        cell.stamp := by
      unfold stamped
      split <;> rfl
    exact ⟨by simp [putAll, top, settled, unstamped], rfl⟩
  | append_singleton writes write ih =>
    obtain ⟨holds, isFloor⟩ := ih
    have next : putAll floor stampOf cell (writes ++ [write]) =
        put floor stampOf (putAll floor stampOf cell writes) write := by simp [putAll]
    rw [next, top_concat]
    cases isVersion : write.version with
    | none =>
      have taken : Taken floor (putAll floor stampOf cell writes).stamp write := by
        simp [Taken, isVersion]
      have settles : Settles (top (floor cell.stamp) writes) write := by
        simp [Settles, isVersion]
      rw [put, if_pos taken, restamp, isVersion]
      have same : top (floor cell.stamp) writes ⊔ (none : WithBot ℕ) =
          top (floor cell.stamp) writes := sup_eq_left.mpr bot_le
      refine ⟨?_, by rw [same]; exact isFloor⟩
      rw [same, settled_concat_of_settles settles,
        stamped_concat_of_ne (by simp [isVersion]), holds]
    | some version =>
      by_cases high : top (floor cell.stamp) writes ≤ WithBot.some version
      · have taken : Taken floor (putAll floor stampOf cell writes).stamp write := by
          intro other isOther
          rw [isVersion] at isOther
          obtain rfl := Option.some.inj isOther
          rw [isFloor]
          exact high
        have settles : Settles (WithBot.some version) write := by
          intro other isOther
          rw [isVersion] at isOther
          rw [Option.some.inj isOther]
        have same : top (floor cell.stamp) writes ⊔ (some version : WithBot ℕ) =
            WithBot.some version := sup_eq_right.mpr high
        rw [put, if_pos taken, restamp, isVersion, same, settled_concat_of_settles settles,
          stamped_of_mem (by simp) isVersion]
        exact ⟨rfl, floor_stampOf version⟩
      · have below := not_le.mp high
        have untaken : ¬ Taken floor (putAll floor stampOf cell writes).stamp write := by
          intro taken
          exact high (isFloor ▸ taken version isVersion)
        have unsettled : ¬ Settles (top (floor cell.stamp) writes) write := by
          intro settles
          exact absurd (settles version isVersion) below.ne
        have same : top (floor cell.stamp) writes ⊔ (some version : WithBot ℕ) =
            top (floor cell.stamp) writes := sup_eq_left.mpr below.le
        rw [put, if_neg untaken, same, settled_concat_of_not unsettled, stamped_concat_of_ne]
        · exact ⟨holds, isFloor⟩
        · intro other isOther
          rw [isVersion] at isOther
          rw [← Option.some.inj isOther]
          exact below.ne

theorem putAll_putAll (floor_stampOf : ∀ version, floor (stampOf version) = WithBot.some version) :
    putAll floor stampOf (putAll floor stampOf cell writes) writes =
      putAll floor stampOf cell writes := by
  obtain ⟨holds, isFloor⟩ := @putAll_eq _ _ _ _ cell writes floor_stampOf
  obtain ⟨again, -⟩ := @putAll_eq _ _ _ _ (putAll floor stampOf cell writes) writes floor_stampOf
  have same : top (floor (putAll floor stampOf cell writes).stamp) writes =
      top (floor cell.stamp) writes := by
    rw [isFloor]
    exact top_eq_of_le fun write mem version isVersion => version_le_top mem isVersion
  rw [again, same, holds, stamped_stamped, settled_settled]

end Ventstream.Library.VersionedCell

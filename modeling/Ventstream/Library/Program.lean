import Mathlib

/-! # Programs with state and errors

A program reads and writes a state and may stop with an error. The state it has
reached when it stops is kept, so that one can ask what a failed program left
behind. `Ensures` says what every run of a program does to the state, whether it
stops or not; its rules follow the structure of the program.
-/

namespace Ventstream.Library

open List

universe u

theorem ok_of_bind {ε : Type u} {α β : Type u} {first : Except ε α} {next : α → Except ε β}
    {value : β} (ok : first >>= next = .ok value) :
    ∃ mid, first = .ok mid ∧ next mid = .ok value := by
  cases first with
  | error error => cases ok
  | ok mid => exact ⟨mid, rfl, ok⟩

/-- What stands at a position of one list is related to what stands there in the other. -/
theorem forall₂_getElem? {α β : Type u} {relation : α → β → Prop} {left : List α} {right : List β}
    (related : List.Forall₂ relation left right) {pos : Nat} {item : α}
    (found : left[pos]? = some item) : ∃ other, right[pos]? = some other ∧ relation item other := by
  induction related generalizing pos with
  | nil => cases found
  | cons one _ ih =>
    cases pos with
    | zero =>
      cases found
      exact ⟨_, rfl, one⟩
    | succ pos => exact ih found

abbrev Program (ε σ : Type u) (α : Type u) := ExceptT ε (StateM σ) α

namespace Program

variable {ε σ α β : Type u}

/-- Run a program: its result or error, and the state it leaves. -/
def exec (program : Program ε σ α) (state : σ) : Except ε α × σ :=
  StateT.run (ExceptT.run program) state

def check (result : Except ε α) : Program ε σ α := fun state => (result, state)

/-- Replace the state and return a value that depends on it. -/
def update (step : σ → α × σ) : Program ε σ α := fun state =>
  (.ok (step state).1, (step state).2)

def read (look : σ → α) : Program ε σ α := update fun state => (look state, state)

def examine (look : σ → Except ε α) : Program ε σ α := fun state => (look state, state)

/-- Run a program and hand its result or error over. -/
def outcome (program : Program ε σ α) : Program ε σ (Except ε α) := fun state =>
  (.ok (exec program state).1, (exec program state).2)

@[simp] theorem exec_outcome (program : Program ε σ α) (state : σ) :
    exec (outcome program) state = (.ok (exec program state).1, (exec program state).2) := rfl

@[simp] theorem exec_pure (value : α) (state : σ) :
    exec (pure value : Program ε σ α) state = (.ok value, state) := rfl

@[simp] theorem exec_throw (error : ε) (state : σ) :
    exec (throw error : Program ε σ α) state = (.error error, state) := rfl

@[simp] theorem exec_check (result : Except ε α) (state : σ) :
    exec (check result) state = (result, state) := rfl

@[simp] theorem exec_update (step : σ → α × σ) (state : σ) :
    exec (update step : Program ε σ α) state = (.ok (step state).1, (step state).2) := rfl

@[simp] theorem exec_read (look : σ → α) (state : σ) :
    exec (read look : Program ε σ α) state = (.ok (look state), state) := rfl

@[simp] theorem exec_examine (look : σ → Except ε α) (state : σ) :
    exec (examine look) state = (look state, state) := rfl

theorem exec_bind (program : Program ε σ α) (next : α → Program ε σ β) (state : σ) :
    exec (program >>= next) state =
      match exec program state with
      | (.ok value, later) => exec (next value) later
      | (.error error, later) => (.error error, later) := by
  unfold exec ExceptT.run StateT.run
  simp only [bind, ExceptT.bind, ExceptT.mk, StateT.bind, ExceptT.bindCont]
  cases program state with
  | mk result later => cases result <;> rfl

variable {program : Program ε σ α} {next : α → Program ε σ β} {state later : σ} {error : ε}
  {value : β} {body : α → Program ε σ PUnit}

theorem exec_bind_ok {value : α} (ran : exec program state = (.ok value, later)) :
    exec (program >>= next) state = exec (next value) later := by
  rw [exec_bind, ran]

theorem exec_bind_error (ran : exec program state = (.error error, later)) :
    exec (program >>= next) state = (.error error, later) := by
  rw [exec_bind, ran]

theorem exec_bind_inv (ran : exec (program >>= next) state = (.ok value, later)) :
    ∃ mid between, exec program state = (.ok mid, between) ∧
      exec (next mid) between = (.ok value, later) := by
  rw [exec_bind] at ran
  cases first : exec program state with
  | mk result between =>
    rw [first] at ran
    cases result with
    | error error => cases ran
    | ok mid => exact ⟨mid, between, rfl, ran⟩

theorem exec_examine_inv (ran : exec (examine look >>= next) state = (.ok value, later)) :
    ∃ seen, look state = .ok seen ∧ exec (next seen) state = (.ok value, later) := by
  obtain ⟨seen, between, looked, rest⟩ := exec_bind_inv ran
  obtain ⟨isSeen, rfl⟩ := Prod.mk.inj looked
  exact ⟨seen, isSeen, rest⟩

/-- Run the items of a list one after the other, up to the first error. -/
def each (body : α → Program ε σ PUnit) : List α → Program ε σ PUnit
  | [] => pure ⟨⟩
  | item :: rest => do
      body item
      each body rest

@[simp] theorem exec_each_nil (body : α → Program ε σ PUnit) (state : σ) :
    exec (each body []) state = (.ok ⟨⟩, state) := rfl

theorem exec_each_cons (body : α → Program ε σ PUnit) (item : α) (rest : List α) (state : σ) :
    exec (each body (item :: rest)) state =
      match exec (body item) state with
      | (.ok _, later) => exec (each body rest) later
      | (.error error, later) => (.error error, later) := by
  rw [each, exec_bind]
  cases exec (body item) state with
  | mk result later => cases result <;> rfl

theorem each_append (body : α → Program ε σ PUnit) (front back : List α) :
    each body (front ++ back) = (do each body front; each body back) := by
  induction front with
  | nil => rfl
  | cons item rest ih => rw [cons_append, each, each, ih, bind_assoc]

theorem exec_bind_error_inv {result : α → β}
    (failed : exec (program >>= fun value => pure (result value)) state = (.error error, later)) :
    exec program state = (.error error, later) := by
  rw [exec_bind] at failed
  cases first : exec program state with
  | mk outcome between =>
    rw [first] at failed
    cases outcome with
    | ok value => cases failed
    | error reason =>
      cases failed
      rfl

theorem exec_each_idle (idle : ∀ item ∈ items, exec (body item) state = (.ok ⟨⟩, state)) :
    exec (each body items) state = (.ok ⟨⟩, state) := by
  induction items with
  | nil => rfl
  | cons item rest ih =>
    rw [exec_each_cons, idle item mem_cons_self]
    exact ih fun other mem => idle other (mem_cons_of_mem item mem)

theorem exec_each_split {value : PUnit}
    (ran : exec (each body (front ++ item :: back)) state = (.ok value, later)) :
    ∃ before after, exec (each body front) state = (.ok ⟨⟩, before) ∧
      exec (body item) before = (.ok ⟨⟩, after) ∧
      exec (each body back) after = (.ok ⟨⟩, later) := by
  rw [each_append] at ran
  obtain ⟨_, before, first, ran⟩ := exec_bind_inv ran
  obtain ⟨_, after, second, rest⟩ := exec_bind_inv ran
  exact ⟨before, after, first, second, rest⟩

/-- Every run, also a failing one, relates the state before to the state after. -/
def Ensures (relation : σ → σ → Prop) (program : Program ε σ α) : Prop :=
  ∀ state, relation state (exec program state).2

namespace Ensures

variable {relation : σ → σ → Prop}

variable {program : Program ε σ α}

theorem ran (ensures : Ensures relation program)
    (ran : exec program state = (result, later)) : relation state later := by
  have related := ensures state
  rw [ran] at related
  exact related

theorem bind_inv (reads : Ensures Eq program)
    (ran : exec (program >>= next) state = (.ok value, later)) :
    ∃ mid, exec program state = (.ok mid, state) ∧ exec (next mid) state = (.ok value, later) := by
  obtain ⟨mid, between, first, rest⟩ := exec_bind_inv ran
  have same := reads.ran first
  subst same
  exact ⟨mid, first, rest⟩

theorem mono (ensures : Ensures relation program)
    (implied : ∀ state later, relation state later → coarse state later) : Ensures coarse program :=
  fun state => implied state _ (ensures state)

theorem update {step} (related : ∀ state, relation state (step state).2) :
    Ensures relation (Program.update step : Program ε σ α) :=
  related

section

variable [Std.Refl relation]

theorem pure (value : α) : Ensures relation (Pure.pure value : Program ε σ α) :=
  fun state => refl_of relation state

theorem throw (error : ε) : Ensures relation (MonadExcept.throw error : Program ε σ α) :=
  fun state => refl_of relation state

theorem check (result : Except ε α) : Ensures relation (Program.check result) :=
  fun state => refl_of relation state

theorem read (look : σ → α) : Ensures relation (Program.read look : Program ε σ α) :=
  fun state => refl_of relation state

theorem examine (look : σ → Except ε α) : Ensures relation (Program.examine look) :=
  fun state => refl_of relation state

end

variable {program : Program ε σ α} {next : α → Program ε σ β}

theorem outcome (ensures : Ensures relation program) : Ensures relation (Program.outcome program) :=
  ensures

theorem examine_bind [Std.Refl relation]
    (related : ∀ state value, look state = .ok value → relation state (exec (next value) state).2) :
    Ensures relation (Program.examine look >>= next) := by
  intro state
  rw [exec_bind, exec_examine]
  cases seen : look state with
  | ok value => exact related state value seen
  | error error => exact refl_of relation state

variable [IsTrans σ relation]

theorem bind (first : Ensures relation program)
    (second : ∀ value, Ensures relation (next value)) : Ensures relation (program >>= next) := by
  intro state
  have step := first state
  rw [exec_bind]
  split
  · rename_i value later ran
    rw [ran] at step
    exact trans_of relation step (second value later)
  · rename_i error later ran
    rw [ran] at step
    exact step

theorem each [Std.Refl relation] (related : ∀ item ∈ items, Ensures relation (body item)) :
    Ensures relation (Program.each body items) := by
  induction items with
  | nil => exact Ensures.pure _
  | cons item rest ih =>
    apply Ensures.bind
    · exact related item mem_cons_self
    · intro _
      exact ih fun later mem => related later (mem_cons_of_mem item mem)

end Ensures

/-- From a state with `pre`, a run that finishes ends in `post`, and one that stops in `stop`. -/
def Triple (pre : σ → Prop) (program : Program ε σ α) (post : α → σ → Prop)
    (stop : ε → σ → Prop) : Prop :=
  ∀ state, pre state →
    match exec program state with
    | (.ok value, later) => post value later
    | (.error error, later) => stop error later

/-- A program that leaves what holds as it was, however it ends. -/
abbrev Keeps (inv : σ → Prop) (stop : ε → σ → Prop) (program : Program ε σ α) : Prop :=
  Triple inv program (fun _ => inv) stop

namespace Triple

variable {pre : σ → Prop} {post : α → σ → Prop} {stop : ε → σ → Prop}

theorem pure {value} (holds : ∀ state, pre state → post value state) :
    Triple pre (Pure.pure value : Program ε σ α) post stop :=
  holds

theorem throw (holds : ∀ state, pre state → stop error state) :
    Triple pre (MonadExcept.throw error : Program ε σ α) post stop :=
  holds

theorem check (ok : ∀ value, result = .ok value → ∀ state, pre state → post value state)
    (error : ∀ error, result = .error error → ∀ state, pre state → stop error state) :
    Triple pre (Program.check result) post stop := by
  intro state holds
  cases found : result with
  | ok value => exact ok value found state holds
  | error reason => exact error reason found state holds

theorem update {step} (holds : ∀ state, pre state → post (step state).1 (step state).2) :
    Triple pre (Program.update step : Program ε σ α) post stop :=
  holds

theorem read (holds : ∀ state, pre state → post (look state) state) :
    Triple pre (Program.read look : Program ε σ α) post stop :=
  holds

theorem done (value : α) : Triple pre (Pure.pure value : Program ε σ α) (fun _ => pre) stop :=
  fun _ holds => holds

theorem look (look : σ → α) : Triple pre (Program.read look : Program ε σ α) (fun _ => pre) stop :=
  fun _ holds => holds

theorem bind {post : β → σ → Prop} (first : Triple pre program mid stop)
    (second : ∀ value, Triple (mid value) (next value) post stop) :
    Triple pre (program >>= next) post stop := by
  intro state holds
  have reached := first state holds
  rw [exec_bind]
  cases ran : exec program state with
  | mk result later =>
    rw [ran] at reached
    cases result with
    | ok value => exact second value later reached
    | error error => exact reached

variable {body : α → Program ε σ PUnit}

theorem check_bind {body : α → Program ε σ β} {post : β → σ → Prop}
    (next : ∀ value, result = .ok value → Triple pre (body value) post stop)
    (error : ∀ error, result = .error error → ∀ state, pre state → stop error state) :
    Triple pre (Program.check result >>= body) post stop := by
  intro state holds
  cases found : result with
  | ok value => exact next value found state holds
  | error reason => exact error reason found state holds

theorem each (kept : ∀ item ∈ items, Triple inv (body item) (fun _ => inv) stop) :
    Triple inv (Program.each body items) (fun _ => inv) stop := by
  induction items with
  | nil => exact Triple.done _
  | cons item rest ih =>
    apply Triple.bind
    · exact kept item mem_cons_self
    · intro _
      exact ih fun later mem => kept later (mem_cons_of_mem item mem)

theorem each_append {mid after : σ → Prop}
    (first : Triple pre (Program.each body front) (fun _ => mid) stop)
    (second : Triple mid (Program.each body back) (fun _ => after) stop) :
    Triple pre (Program.each body (front ++ back)) (fun _ => after) stop := by
  rw [Program.each_append]
  exact Triple.bind first fun _ => second

theorem assuming (triple : fact → Triple pre program post stop) :
    Triple (fun state => fact ∧ pre state) program post stop :=
  fun state holds => triple holds.1 state holds.2

theorem weaken (triple : Triple strong program sharp sharply)
    (before : ∀ state, pre state → strong state)
    (after : ∀ value state, sharp value state → post value state)
    (stopped : ∀ error state, sharply error state → stop error state) :
    Triple pre program post stop := by
  intro state holds
  have reached := triple state (before state holds)
  cases ran : exec program state with
  | mk result later =>
    rw [ran] at reached
    cases result with
    | ok value => exact after value later reached
    | error error => exact stopped error later reached

end Triple

variable {program : Program ε σ α} {post : α → σ → Prop} {stop : ε → σ → Prop} {state : σ}
  {relation : σ → σ → Prop}

theorem Triple.run (pre : σ → Prop) (holds : pre state) (triple : Triple pre program post stop) :
    match exec program state with
    | (.ok value, later) => post value later
    | (.error error, later) => stop error later :=
  triple state holds

theorem Triple.of_ok (triple : Triple pre program post stop) {value : α} (holds : pre state)
    (ran : exec program state = (.ok value, later)) : post value later := by
  have reached := triple state holds
  rw [ran] at reached
  exact reached

theorem Ensures.of_triple [Std.Refl relation]
    (triple : ∀ start, Triple (relation start) program (fun _ => relation start)
      fun _ => relation start) : Ensures relation program := by
  intro state
  have reached := triple state state (refl_of relation state)
  cases ran : exec program state with
  | mk result later =>
    rw [ran] at reached
    cases result <;> exact reached

theorem Ensures.triple [IsTrans σ relation] (ensures : Ensures relation program) (start : σ) :
    Triple (relation start) program (fun _ => relation start) fun _ => relation start := by
  intro state before
  have step := ensures state
  cases ran : exec program state with
  | mk result later =>
    rw [ran] at step
    cases result <;> exact trans_of relation before step

end Program

end Ventstream.Library

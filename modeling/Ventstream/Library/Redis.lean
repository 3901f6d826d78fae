import Ventstream.Library.Program

/-! # A Redis keyspace

Strings, hashes and JSON documents under string keys, and the commands on them that a
script calls. A script runs alone. An error stops it, and what it has written by then
stays. A key with a time to live may be gone at any later moment; how long it lives is
not modelled.
-/

namespace Ventstream.Library.Redis

open Library.Program

inductive Data where
  | string (text : String)
  | hash (fields : String → Option String)
  | json (text : String)

structure Entry where
  data : Data
  /-- Whether the key has a time to live. -/
  volatile : Bool

abbrev Keyspace := String → Option Entry

abbrev Script := Program String Keyspace

def wrongType : String := "WRONGTYPE Operation against a key holding the wrong kind of value"

def textOf (key : String) (space : Keyspace) : Except String (Option String) :=
  match space key with
  | none => .ok none
  | some ⟨.string text, _⟩ => .ok (some text)
  | some _ => .error wrongType

def fieldOf (key field : String) (space : Keyspace) : Except String (Option String) :=
  match space key with
  | none => .ok none
  | some ⟨.hash fields, _⟩ => .ok (fields field)
  | some _ => .error wrongType

/-- `GET` -/
def get (key : String) : Script (Option String) := examine (textOf key)

/-- `HGET` -/
def hget (key field : String) : Script (Option String) := examine (fieldOf key field)

/-- `EXISTS` of one key. -/
def present (key : String) : Script Bool := read fun space => (space key).isSome

/-- `TYPE` -/
def typeName (key : String) : Script String := read fun space =>
  match space key with
  | none => "none"
  | some ⟨.string _, _⟩ => "string"
  | some ⟨.hash _, _⟩ => "hash"
  | some ⟨.json _, _⟩ => "ReJSON-RL"

def write (key : String) (entry : Option Entry) : Script PUnit := update fun space =>
  (⟨⟩, Function.update space key entry)

/-- `SET`, which also drops a time to live. -/
def set (key text : String) : Script PUnit := write key (some ⟨.string text, false⟩)

/-- `SET` with `PX`. -/
def setPx (key text : String) (ttl : Nat) : Script PUnit :=
  if ttl = 0 then throw "ERR invalid expire time in 'set' command"
  else write key (some ⟨.string text, true⟩)

/-- `DEL` and `UNLINK`: the number of keys that were there. -/
def del (keys : List String) : Script Nat := update fun space =>
  ((keys.eraseDups.filter fun key => (space key).isSome).length,
    fun key => if key ∈ keys then none else space key)

/-- `HSET` of one field. -/
def hset (key field value : String) : Script PUnit := do
  let found ← examine fun space =>
    match space key with
    | none => .ok ((fun _ => none : String → Option String), false)
    | some ⟨.hash fields, volatile⟩ => .ok (fields, volatile)
    | some _ => .error wrongType
  write key (some ⟨.hash (Function.update found.1 field (some value)), found.2⟩)

/-- `PEXPIRE` -/
def pexpire (key : String) (ttl : Nat) : Script PUnit := update fun space =>
  (⟨⟩, Function.update space key
    (if ttl = 0 then none else (space key).map fun entry => { entry with volatile := true }))

/-- `RENAME` -/
def rename (source target : String) : Script PUnit := do
  let entry ← examine fun space =>
    match space source with
    | none => .error "ERR no such key"
    | some entry => .ok entry
  write source none
  write target (some entry)

/-- `JSON.SET` of a whole document, with the module's complaint about a text it does not read. -/
def jsonSet (complaint : String → Option String) (key text : String) : Script PUnit := do
  let volatile ← examine fun space =>
    match complaint text, space key with
    | some message, _ => .error message
    | none, none => .ok false
    | none, some ⟨.json _, volatile⟩ => .ok volatile
    | none, some _ => .error "Existing key has wrong Redis type"
  write key (some ⟨.json text, volatile⟩)

@[simp] theorem exec_get (key : String) (space : Keyspace) :
    exec (get key) space = (textOf key space, space) := rfl

@[simp] theorem exec_hget (key field : String) (space : Keyspace) :
    exec (hget key field) space = (fieldOf key field space, space) := rfl

section

/-- These keys are as before. -/
def Frame (kept : String → Prop) (before after : Keyspace) : Prop :=
  ∀ key, kept key → after key = before key

variable {kept : String → Prop}

instance : Std.Refl (Frame kept) := ⟨fun _ _ _ => rfl⟩

instance : IsTrans Keyspace (Frame kept) :=
  ⟨fun _ _ _ first second key isKept => (second key isKept).trans (first key isKept)⟩

variable {key : String}

theorem frame_write (entry : Option Entry) (notKept : ¬ kept key) :
    Ensures (Frame kept) (write key entry) := by
  refine Ensures.update fun space other isKept => ?_
  refine Function.update_of_ne ?_ _ _
  rintro rfl
  exact notKept isKept

theorem frame_set (text : String) (notKept : ¬ kept key) : Ensures (Frame kept) (set key text) :=
  frame_write _ notKept

theorem frame_setPx (text : String) (ttl : Nat) (notKept : ¬ kept key) :
    Ensures (Frame kept) (setPx key text ttl) := by
  unfold setPx
  split
  · exact Ensures.throw _
  · exact frame_write _ notKept

theorem frame_del (notKept : ∀ key ∈ keys, ¬ kept key) : Ensures (Frame kept) (del keys) := by
  refine Ensures.update fun space other isKept => ?_
  exact if_neg fun mem => notKept other mem isKept

theorem frame_hset (field value : String) (notKept : ¬ kept key) :
    Ensures (Frame kept) (hset key field value) :=
  (Ensures.examine _).bind fun _ => frame_write _ notKept

theorem frame_pexpire (ttl : Nat) (notKept : ¬ kept key) :
    Ensures (Frame kept) (pexpire key ttl) := by
  refine Ensures.update fun space other isKept => ?_
  refine Function.update_of_ne ?_ _ _
  rintro rfl
  exact notKept isKept

theorem frame_rename (notKept : ¬ kept key) (notTarget : ¬ kept target) :
    Ensures (Frame kept) (rename key target) :=
  (Ensures.examine _).bind fun _ =>
    (frame_write none notKept).bind fun _ => frame_write _ notTarget

theorem frame_jsonSet (complaint : String → Option String) (text : String)
    (notKept : ¬ kept key) : Ensures (Frame kept) (jsonSet complaint key text) :=
  (Ensures.examine _).bind fun _ => frame_write _ notKept

end

end Ventstream.Library.Redis

import Fwdelta.JsonGrammar

/-
What a consumer takes out of a document.

A field is taken by its name and the items of a list in their order, and a value of
another form than the expected one is not read at all.  The rules say that a reader of
the items reads the list.
-/

namespace JsonGrammar

namespace Value

variable {α : Type}

def text : Value → Option String
  | .str text => some text
  | _ => none

def flag : Value → Option Bool
  | .bool value => some value
  | _ => none

/-- A number that is written without a sign, a point or a power. -/
def natural : Value → Option Nat
  | .num number => if number = ⟨false, number.digits, 0⟩ then some number.digits else none
  | _ => none

/-- The first field of that name. -/
def field (name : String) : Value → Option Value
  | .obj fields => (fields.find? (fun f => f.1 == name)).map Prod.snd
  | _ => none

def get (name : String) (read : Value → Option α) (value : Value) : Option α :=
  (value.field name).bind read

def items (read : Value → Option α) : Value → Option (List α)
  | .arr items => items.mapM read
  | _ => none

/-- A value that may be left open. -/
def orNull (read : Value → Option α) : Value → Option (Option α)
  | .null => some none
  | value => (read value).map some

@[simp]
theorem text_str (text : String) : (Value.str text).text = some text := rfl

@[simp]
theorem flag_bool (value : Bool) : (Value.bool value).flag = some value := rfl

@[simp]
theorem natural_num (n : Nat) : (Value.num ⟨false, n, 0⟩).natural = some n :=
  if_pos rfl

theorem get_first {name : String} {read : Value → Option α} (v : Value)
    (rest : List (String × Value)) : (Value.obj ((name, v) :: rest)).get name read = read v := by
  simp [get, field]

theorem get_later {name other : String} {read : Value → Option α} (differ : (other == name) = false)
    (v : Value) (rest : List (String × Value)) :
    (Value.obj ((other, v) :: rest)).get name read = (Value.obj rest).get name read := by
  simp only [get, field, List.find?_cons, differ]

theorem mapM_read {β γ : Type} {read : β → Option γ} {write : α → β} {meant : α → γ}
    {list : List α} (reads : ∀ a ∈ list, read (write a) = some (meant a)) :
    (list.map write).mapM read = some (list.map meant) := by
  induction list with
  | nil => rfl
  | cons a rest ih =>
      have first := reads a List.mem_cons_self
      have later := ih fun b member => reads b (List.mem_cons_of_mem _ member)
      rw [List.map_cons, List.mapM_cons, first, later]
      rfl

/-- A list is read when each of its items is. -/
theorem items_map {β : Type} {read : Value → Option β} {write : α → Value} {meant : α → β}
    {list : List α} (reads : ∀ a ∈ list, read (write a) = some (meant a)) :
    (Value.arr (list.map write)).items read = some (list.map meant) :=
  mapM_read reads

theorem items_arr {read : Value → Option α} {write : α → Value} {list : List α}
    (reads : ∀ a ∈ list, read (write a) = some a) :
    (Value.arr (list.map write)).items read = some list := by
  have whole : (Value.arr (list.map write)).items read = some (list.map id) := items_map reads
  rwa [List.map_id] at whole

end Value

end JsonGrammar

import Monitor.Lib.Json

/-! # Printing dynamic values

`fmt.Sprintf` with `%v` for what an empty interface holds after decoding. Strings are printed as
they are, a map by its members in the order of their keys, which is the order they have here.
How a `float64` is printed is a parameter.
-/

namespace Monitor.Json

open GoText List

def spaceSeparated : List GoString → GoString
  | [] => []
  | [s] => s
  | s :: rest => s ++ 32 :: spaceSeparated rest

theorem length_le_spaceSeparated {s : GoString} {texts : List GoString} (mem : s ∈ texts) :
    s.length ≤ (spaceSeparated texts).length := by
  induction texts with
  | nil => cases mem
  | cons first rest ih =>
    cases rest with
    | nil =>
      simp only [mem_singleton] at mem
      simp [spaceSeparated, mem]
    | cons second rest =>
      simp only [spaceSeparated, length_append, length_cons]
      cases mem_cons.mp mem with
      | inl here =>
        subst here
        omega
      | inr later =>
        have := ih later
        omega

variable (float : Float64 → GoString)

mutual

def sprint : Value → GoString
  | .nil => ascii "<nil>"
  | .bool b => ascii (if b then "true" else "false")
  | .float x => float x
  | .string s => s
  | .slice items => ascii "[" ++ spaceSeparated (sprintItems items) ++ ascii "]"
  | .map members => ascii "map[" ++ spaceSeparated (sprintMembers members) ++ ascii "]"

def sprintItems : List Value → List GoString
  | [] => []
  | item :: items => sprint item :: sprintItems items

def sprintMembers : List (GoString × Value) → List GoString
  | [] => []
  | (k, v) :: members => (k ++ 58 :: sprint v) :: sprintMembers members

end

variable {members : List (GoString × Value)} {k : GoString}

theorem mem_sprintMembers {v : Value}
    (mem : (k, v) ∈ members) : k ++ 58 :: sprint float v ∈ sprintMembers float members := by
  induction members with
  | nil => cases mem
  | cons first rest ih =>
    simp only [sprintMembers, mem_cons]
    cases mem_cons.mp mem with
    | inl here =>
      subst here
      exact .inl rfl
    | inr later => exact .inr (ih later)

theorem length_sprint_lt {v : Value}
    (mem : (k, v) ∈ members) : (sprint float v).length < (sprint float (.map members)).length := by
  have lt := length_le_spaceSeparated (mem_sprintMembers float mem)
  have around : (ascii "map[").length = 4 := rfl
  simp only [length_append, length_cons] at lt
  simp only [sprint, length_append, around]
  omega

end Monitor.Json

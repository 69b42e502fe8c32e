import Mathlib

/-!
# JSON values as `serde_json` keeps them

`Value` mirrors `serde_json::Value` without the `preserve_order` feature: an
object is a map sorted by key, given here by its list of members in that
order.  Numbers are the integers that fit an `i64` or a `u64`, or a float,
which is kept by its printed text together with the only other fact programs
ask of it, whether it is zero.

`Value.print` is the compact text `to_string` produces.  Parsing is not
defined here: a development that needs it takes the parser as a parameter.
-/

namespace Dokan.Verified.Json

/-- A JSON number. -/
inductive Number
  | int (i : Int)
  | float (text : String) (zero : Bool)
deriving DecidableEq, Repr

/-- A JSON value. -/
inductive Value
  | null
  | bool (b : Bool)
  | num (n : Number)
  | str (s : String)
  | arr (a : List Value)
  | obj (m : List (String × Value))

namespace Value

/-! ## Reading a value -/

/-- Look a member of an object up; anything else has no members. -/
def get? : Value → String → Option Value
  | .obj m, k => (m.find? fun p => p.1 == k).map Prod.snd
  | _, _ => none

def asStr? : Value → Option String
  | .str s => some s
  | _ => none

def asArray? : Value → Option (List Value)
  | .arr a => some a
  | _ => none

def asBool? : Value → Option Bool
  | .bool b => some b
  | _ => none

/-- The integers in the range of an `i64`. -/
def asI64? : Value → Option Int
  | .num (.int i) => if -2 ^ 63 ≤ i ∧ i < 2 ^ 63 then some i else none
  | _ => none

/-- The integers in the range of a `u64`. -/
def asU64? : Value → Option Int
  | .num (.int i) => if 0 ≤ i ∧ i < 2 ^ 64 then some i else none
  | _ => none

section Reading

variable {v : Value}

theorem asStr?_eq_some {s : String} : v.asStr? = some s ↔ v = .str s := by
  cases v <;> simp [asStr?]

theorem asBool?_eq_some {b : Bool} : v.asBool? = some b ↔ v = .bool b := by
  cases v <;> simp [asBool?]

theorem asI64?_eq_some {i : Int} :
    v.asI64? = some i ↔ v = .num (.int i) ∧ -2 ^ 63 ≤ i ∧ i < 2 ^ 63 := by
  cases v with
  | num m =>
      cases m with
      | int j =>
          simp only [asI64?, Option.ite_none_right_eq_some, Option.some.injEq, num.injEq,
            Number.int.injEq]
          constructor
          · rintro ⟨hrange, rfl⟩
            exact ⟨rfl, hrange⟩
          · rintro ⟨rfl, hrange⟩
            exact ⟨hrange, rfl⟩
      | float text zero => simp [asI64?]
  | _ => simp [asI64?]

theorem asU64?_eq_some {i : Int} :
    v.asU64? = some i ↔ v = .num (.int i) ∧ 0 ≤ i ∧ i < 2 ^ 64 := by
  cases v with
  | num m =>
      cases m with
      | int j =>
          simp only [asU64?, Option.ite_none_right_eq_some, Option.some.injEq, num.injEq,
            Number.int.injEq]
          constructor
          · rintro ⟨hrange, rfl⟩
            exact ⟨rfl, hrange⟩
          · rintro ⟨rfl, hrange⟩
            exact ⟨hrange, rfl⟩
      | float text zero => simp [asU64?]
  | _ => simp [asU64?]

end Reading

/-! ## Building an object -/

/-- Insert or replace a member, keeping the keys sorted. -/
def insertKey (k : String) (v : Value) :
    List (String × Value) → List (String × Value)
  | [] => [(k, v)]
  | (k', v') :: m =>
      if k = k' then (k, v) :: m
      else if k < k' then (k, v) :: (k', v') :: m
      else (k', v') :: insertKey k v m

/-- The object with the given members, a later one replacing an earlier one
of the same key. -/
def object (pairs : List (String × Value)) : Value :=
  .obj (pairs.foldl (fun m p => insertKey p.1 p.2 m) [])

/-- The members after an insertion: the new one and old ones. -/
theorem mem_insertKey {k : String} {v : Value} {m : List (String × Value)} {p : String × Value}
    (h : p ∈ insertKey k v m) : p = (k, v) ∨ p ∈ m := by
  induction m with
  | nil => exact .inl (List.mem_singleton.mp h)
  | cons q m ih =>
      obtain ⟨k', v'⟩ := q
      unfold insertKey at h
      split_ifs at h
      · rcases List.mem_cons.mp h with h | h
        · exact .inl h
        · exact .inr (List.mem_cons_of_mem _ h)
      · rcases List.mem_cons.mp h with h | h
        · exact .inl h
        · exact .inr h
      · rcases List.mem_cons.mp h with h | h
        · exact .inr (h ▸ List.mem_cons_self)
        · exact (ih h).imp_right (List.mem_cons_of_mem _)

/-- A member of an object is what was last put under its key. -/
@[simp] theorem get?_insertKey (k j : String) (v : Value) (m : List (String × Value)) :
    get? (.obj (insertKey k v m)) j = if j = k then some v else get? (.obj m) j := by
  induction m with
  | nil =>
      by_cases hj : j = k
      · subst hj
        simp [insertKey, get?]
      · simp [insertKey, get?, hj, Ne.symm hj]
  | cons p m ih =>
      obtain ⟨k', v'⟩ := p
      simp only [insertKey]
      split
      · rename_i hk
        subst hk
        by_cases hj : j = k
        · subst hj
          simp [get?]
        · simp [get?, hj, Ne.symm hj]
      · split
        · by_cases hj : j = k
          · subst hj
            simp [get?]
          · simp [get?, hj, Ne.symm hj]
        · rename_i hk _
          by_cases hj : j = k'
          · subst hj
            simp [get?, Ne.symm hk]
          · simpa [get?, Ne.symm hj] using ih

/-! ## Compact text -/

/-- Lower-case hexadecimal digit of a number below sixteen. -/
def hexDigit (n : Nat) : Char := Nat.digitChar n

/-- A character inside a JSON string literal. -/
def escapeChar (c : Char) : List Char :=
  if c = '"' then ['\\', '"']
  else if c = '\\' then ['\\', '\\']
  else if c = Char.ofNat 8 then ['\\', 'b']
  else if c = Char.ofNat 12 then ['\\', 'f']
  else if c = '\n' then ['\\', 'n']
  else if c = '\r' then ['\\', 'r']
  else if c = '\t' then ['\\', 't']
  else if c.toNat < 32 then
    ['\\', 'u', '0', '0', hexDigit (c.toNat / 16), hexDigit (c.toNat % 16)]
  else [c]

/-- The quoted text of a string. -/
def quote (s : String) : String :=
  String.ofList ('"' :: (s.toList.flatMap escapeChar ++ ['"']))

def printNumber : Number → String
  | .int i => toString i
  | .float text _ => text

mutual
/-- The compact text of a value, as `to_string` gives it. -/
def print : Value → String
  | .null => "null"
  | .bool b => if b then "true" else "false"
  | .num n => printNumber n
  | .str s => quote s
  | .arr a => "[" ++ ",".intercalate (printElems a) ++ "]"
  | .obj m => "\x7b" ++ ",".intercalate (printMembers m) ++ "\x7d"

def printElems : List Value → List String
  | [] => []
  | v :: vs => print v :: printElems vs

def printMembers : List (String × Value) → List String
  | [] => []
  | (k, v) :: ms => (quote k ++ ":" ++ print v) :: printMembers ms
end

example : print (.arr [.str "a", .null, .num (.int (-3))]) = "[\"a\",null,-3]" := by
  decide

end Value

end Dokan.Verified.Json

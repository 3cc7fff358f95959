import Mathlib.Data.Rat.Defs
import Mathlib.Data.List.Basic

/-!
# Values and what survives JSON text

The values a program hands to a serializer: null, booleans, numbers, strings, arrays and objects.
Objects are association lists in insertion order. Numbers keep the three readings that JSON cannot
spell, because that is the only way a value can change on its way through text.

`Value.viaJson` is the round trip itself: print the value, parse the text. It replaces every
number that JSON cannot spell by `null` and leaves the rest alone.
-/

namespace Codec

/-! ## Strings

The characters of a string are read off its spelling. -/

theorem toList_eq {s : String} {cs : List Char} (h : s = String.ofList cs) : s.toList = cs := by
  rw [h, String.toList_ofList]

theorem toList_append_eq {s t : String} {cs ds : List Char} (hs : s = String.ofList cs)
    (ht : t = String.ofList ds) : (s ++ t).toList = cs ++ ds := by
  rw [String.toList_append, toList_eq hs, toList_eq ht]

theorem map_toList_cons {s : String} {ss : List String} {cs : List Char} {css : List (List Char)}
    (hs : s.toList = cs) (hss : ss.map String.toList = css) :
    (s :: ss).map String.toList = cs :: css := by
  rw [List.map_cons, hs, hss]

/-! ## Values -/

/-- A number: finite, or one of the readings JSON text has no spelling for. -/
inductive Num where
  | fin (q : ℚ)
  | posInf
  | negInf
  | nan
deriving DecidableEq, Repr

/-- A value a serializer is given. -/
inductive Value where
  | null
  | bool (b : Bool)
  | num (n : Num)
  | str (s : String)
  | arr (xs : List Value)
  | obj (kvs : List (String × Value))
deriving Repr

namespace Value

/-- The integer `n` as a value. -/
def int (n : ℤ) : Value := .num (.fin n)

/-! ## The round trip through text -/

mutual

/-- Print as JSON and parse again. -/
def viaJson : Value → Value
  | .null => .null
  | .bool b => .bool b
  | .num (.fin q) => .num (.fin q)
  | .num _ => .null
  | .str s => .str s
  | .arr xs => .arr (viaJsonList xs)
  | .obj kvs => .obj (viaJsonEntries kvs)

def viaJsonList : List Value → List Value
  | [] => []
  | x :: xs => viaJson x :: viaJsonList xs

def viaJsonEntries : List (String × Value) → List (String × Value)
  | [] => []
  | (k, v) :: kvs => (k, viaJson v) :: viaJsonEntries kvs

end

mutual

/-- No number inside is one that JSON cannot spell. -/
def isFinite : Value → Bool
  | .null => true
  | .bool _ => true
  | .num (.fin _) => true
  | .num _ => false
  | .str _ => true
  | .arr xs => isFiniteList xs
  | .obj kvs => isFiniteEntries kvs

def isFiniteList : List Value → Bool
  | [] => true
  | x :: xs => isFinite x && isFiniteList xs

def isFiniteEntries : List (String × Value) → Bool
  | [] => true
  | (_, v) :: kvs => isFinite v && isFiniteEntries kvs

end

@[simp] theorem viaJson_null : viaJson .null = .null := rfl

@[simp] theorem viaJson_bool (b : Bool) : viaJson (.bool b) = .bool b := rfl

@[simp] theorem viaJson_fin (q : ℚ) : viaJson (.num (.fin q)) = .num (.fin q) := rfl

@[simp] theorem viaJson_int (n : ℤ) : viaJson (.int n) = .int n := viaJson_fin n

@[simp] theorem viaJson_str (s : String) : viaJson (.str s) = .str s := rfl

@[simp] theorem viaJson_arr (xs : List Value) : viaJson (.arr xs) = .arr (viaJsonList xs) :=
  rfl

@[simp] theorem viaJson_obj (kvs : List (String × Value)) :
    viaJson (.obj kvs) = .obj (viaJsonEntries kvs) :=
  rfl

@[simp] theorem viaJsonEntries_nil : viaJsonEntries [] = [] := rfl

@[simp] theorem viaJsonEntries_cons (k : String) (v : Value) (kvs : List (String × Value)) :
    viaJsonEntries ((k, v) :: kvs) = (k, viaJson v) :: viaJsonEntries kvs :=
  rfl

@[simp] theorem viaJsonEntries_append (kvs kvs' : List (String × Value)) :
    viaJsonEntries (kvs ++ kvs') = viaJsonEntries kvs ++ viaJsonEntries kvs' := by
  induction kvs with
  | nil => rw [viaJsonEntries_nil, List.nil_append, List.nil_append]
  | cons e kvs ih =>
    obtain ⟨k, v⟩ := e
    rw [List.cons_append, viaJsonEntries_cons, viaJsonEntries_cons, ih, List.cons_append]

/-- Looking a key up commutes with the round trip: text keeps every key. -/
theorem lookup_viaJsonEntries (k : String) (kvs : List (String × Value)) :
    (viaJsonEntries kvs).lookup k = (kvs.lookup k).map viaJson := by
  induction kvs with
  | nil => rw [viaJsonEntries_nil]; rfl
  | cons e kvs ih =>
    obtain ⟨k', v⟩ := e
    rw [viaJsonEntries_cons, List.lookup_cons, List.lookup_cons]
    cases k == k' with
    | true => rfl
    | false => exact ih

/-! The three parts of each statement follow the three-part recursion. -/

mutual

/-- Text that was parsed once prints and parses to itself. -/
theorem viaJson_viaJson : ∀ v : Value, v.viaJson.viaJson = v.viaJson
  | .null => by rw [viaJson_null, viaJson_null]
  | .bool b => by rw [viaJson_bool, viaJson_bool]
  | .num (.fin q) => by rw [viaJson_fin, viaJson_fin]
  | .num .posInf => by simp only [viaJson]
  | .num .negInf => by simp only [viaJson]
  | .num .nan => by simp only [viaJson]
  | .str s => by rw [viaJson_str, viaJson_str]
  | .arr xs => by rw [viaJson_arr, viaJson_arr, viaJsonList_viaJsonList]
  | .obj kvs => by rw [viaJson_obj, viaJson_obj, viaJsonEntries_viaJsonEntries]

theorem viaJsonList_viaJsonList :
    ∀ xs : List Value, viaJsonList (viaJsonList xs) = viaJsonList xs
  | [] => by simp only [viaJsonList]
  | x :: xs => by
    simp only [viaJsonList]
    rw [viaJson_viaJson x, viaJsonList_viaJsonList xs]

theorem viaJsonEntries_viaJsonEntries :
    ∀ kvs : List (String × Value),
      viaJsonEntries (viaJsonEntries kvs) = viaJsonEntries kvs
  | [] => by rw [viaJsonEntries_nil, viaJsonEntries_nil]
  | (k, v) :: kvs => by
    rw [viaJsonEntries_cons, viaJsonEntries_cons, viaJson_viaJson v,
      viaJsonEntries_viaJsonEntries kvs]

end

mutual

/-- **What text keeps.** A value survives the round trip exactly when every number in it can be
spelled. -/
theorem viaJson_eq_self_iff : ∀ v : Value, v.viaJson = v ↔ v.isFinite = true
  | .null => by rw [viaJson_null]; simp [isFinite]
  | .bool b => by rw [viaJson_bool]; simp [isFinite]
  | .num (.fin q) => by rw [viaJson_fin]; simp [isFinite]
  | .num .posInf => by simp [viaJson, isFinite]
  | .num .negInf => by simp [viaJson, isFinite]
  | .num .nan => by simp [viaJson, isFinite]
  | .str s => by rw [viaJson_str]; simp [isFinite]
  | .arr xs => by
    rw [viaJson_arr, Value.arr.injEq, viaJsonList_eq_self_iff xs, isFinite]
  | .obj kvs => by
    rw [viaJson_obj, Value.obj.injEq, viaJsonEntries_eq_self_iff kvs, isFinite]

theorem viaJsonList_eq_self_iff :
    ∀ xs : List Value, viaJsonList xs = xs ↔ isFiniteList xs = true
  | [] => by simp [viaJsonList, isFiniteList]
  | x :: xs => by
    rw [viaJsonList, isFiniteList, List.cons.injEq, viaJson_eq_self_iff x,
      viaJsonList_eq_self_iff xs, Bool.and_eq_true]

theorem viaJsonEntries_eq_self_iff :
    ∀ kvs : List (String × Value), viaJsonEntries kvs = kvs ↔ isFiniteEntries kvs = true
  | [] => by simp [viaJsonEntries, isFiniteEntries]
  | (k, v) :: kvs => by
    rw [viaJsonEntries_cons, isFiniteEntries, List.cons.injEq, Prod.mk.injEq,
      viaJson_eq_self_iff v, viaJsonEntries_eq_self_iff kvs, Bool.and_eq_true]
    simp

end

end Value

end Codec

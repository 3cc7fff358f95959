import Mathlib.Data.List.Lex
import QwenHarness.Codec.Decimal
import QwenHarness.Codec.Delimited
import QwenHarness.Codec.Quote

/-!
# The canonical text of a value

An approval binds to the hash of the JSON text of an action with the keys sorted at every level. The
text determines the value: where a part of it ends is plain from the part itself, so equal texts
come from values that are equal up to the order of keys.

Strings are texts of UTF-16 code units and numbers are finite, as the runtime has them.
-/

namespace QwenHarness.Policy

open Codec Utf16

/-! ## Values -/

/-- A value as the runtime has it. What is `undefined` is no JSON value, but an entry of an object
may be. -/
inductive Json where
  | undefined
  | null
  | bool (b : Bool)
  | num (n : Number)
  | str (s : Text)
  | arr (xs : List Json)
  | obj (kvs : List (Text × Json))

namespace Json

def isUndefined : Json → Bool
  | undefined => true
  | _ => false

/-- The entries of an object that are there. -/
def defined (kvs : List (Text × Json)) : List (Text × Json) := kvs.filter fun e ↦ !e.2.isUndefined

mutual

/-- A JSON value: the keys of an object are distinct, and nothing is `undefined` but entries. -/
def IsJson : Json → Prop
  | undefined => False
  | null => True
  | bool _ => True
  | num _ => True
  | str _ => True
  | arr xs => IsJsonItems xs
  | obj kvs => (kvs.map Prod.fst).Nodup ∧ IsJsonEntries kvs

def IsJsonItems : List Json → Prop
  | [] => True
  | x :: xs => IsJson x ∧ IsJsonItems xs

def IsJsonEntries : List (Text × Json) → Prop
  | [] => True
  | (_, v) :: kvs => (v.isUndefined = true ∨ IsJson v) ∧ IsJsonEntries kvs

end

mutual

/-- Equality of JSON values, where objects are finite maps: they have the same keys, and the same
value under each. -/
def Same : Json → Json → Prop
  | undefined, undefined => True
  | null, null => True
  | bool b, bool b' => b = b'
  | num n, num n' => n = n'
  | str s, str s' => s = s'
  | arr xs, arr ys => SameItems xs ys
  | obj kvs, obj kvs' =>
    (∀ k, k ∈ (defined kvs).map Prod.fst ↔ k ∈ (defined kvs').map Prod.fst) ∧
      SameEntries kvs (defined kvs')
  | _, _ => False

def SameItems : List Json → List Json → Prop
  | [], [] => True
  | x :: xs, y :: ys => Same x y ∧ SameItems xs ys
  | _, _ => False

def SameEntries : List (Text × Json) → List (Text × Json) → Prop
  | [], _ => True
  | (k, v) :: kvs, kvs' =>
    (v.isUndefined = true ∨ ∃ w, (k, w) ∈ kvs' ∧ Same v w) ∧ SameEntries kvs kvs'

end

/-! ## The text -/

def comma : CodeUnit := 0x2C
def colon : CodeUnit := 0x3A
def leftBracket : CodeUnit := 0x5B
def rightBracket : CodeUnit := 0x5D
def leftBrace : CodeUnit := 0x7B
def rightBrace : CodeUnit := 0x7D

mutual

/-- Deterministic JSON: keys sorted at every level, and entries that are `undefined` left out. -/
def canonicalJson : Json → Text
  | undefined => ofString "null"
  | null => ofString "null"
  | bool b => ofString (if b then "true" else "false")
  | num n => ofChars n.spell
  | str s => quote s
  | arr xs => leftBracket :: [comma].intercalate (canonicalItems xs) ++ [rightBracket]
  | obj kvs =>
    leftBrace ::
      [comma].intercalate (((canonicalEntries kvs).insertionSort fun a b ↦ a.1 ≤ b.1).map
        fun e ↦ quote e.1 ++ colon :: e.2) ++ [rightBrace]

def canonicalItems : List Json → List Text
  | [] => []
  | x :: xs => canonicalJson x :: canonicalItems xs

def canonicalEntries : List (Text × Json) → List (Text × Text)
  | [] => []
  | (k, v) :: kvs =>
    if v.isUndefined then canonicalEntries kvs else (k, canonicalJson v) :: canonicalEntries kvs

end

/-- The hexadecimal SHA-256 of the canonical text, which is hashed as UTF-8. -/
def digest (sha256 : List UInt8 → String) (x : Json) : String := sha256 (bytes (canonicalJson x))

/-! ### What the definitions say of lists -/

/-- Values are built from the values in them. -/
theorem induct {P : Json → Prop} (undefined : P undefined) (null : P null)
    (bool : ∀ b, P (bool b)) (num : ∀ n, P (num n)) (str : ∀ s, P (str s))
    (arr : ∀ xs, (∀ x ∈ xs, P x) → P (arr xs))
    (obj : ∀ kvs : List (Text × Json), (∀ e ∈ kvs, P e.2) → P (obj kvs)) (x : Json) : P x :=
  @Json.rec P (fun xs ↦ ∀ x ∈ xs, P x) (fun kvs ↦ ∀ e ∈ kvs, P e.2) (fun e ↦ P e.2)
    undefined null bool num str arr obj
    (fun _ h ↦ absurd h List.not_mem_nil) (fun _ _ hx hxs ↦ List.forall_mem_cons.mpr ⟨hx, hxs⟩)
    (fun _ h ↦ absurd h List.not_mem_nil) (fun _ _ he hes ↦ List.forall_mem_cons.mpr ⟨he, hes⟩)
    (fun _ _ h ↦ h) x

theorem defined_cons (k : Text) (v : Json) (kvs : List (Text × Json)) : defined ((k, v) :: kvs) =
    if v.isUndefined then defined kvs else (k, v) :: defined kvs := by
  rw [defined, List.filter_cons, ← defined]
  cases v.isUndefined <;> rfl

theorem isJsonItems_iff {xs : List Json} : IsJsonItems xs ↔ ∀ x ∈ xs, IsJson x := by
  induction xs with
  | nil => simp [IsJsonItems]
  | cons x xs ih => rw [IsJsonItems, ih, List.forall_mem_cons]

theorem isJsonEntries_iff {kvs : List (Text × Json)} :
    IsJsonEntries kvs ↔ ∀ e ∈ defined kvs, IsJson e.2 := by
  induction kvs with
  | nil => simp [IsJsonEntries, defined]
  | cons e kvs ih =>
    obtain ⟨k, v⟩ := e
    rw [IsJsonEntries, ih, defined_cons]
    cases v.isUndefined <;> simp

theorem sameItems_iff {xs ys : List Json} : SameItems xs ys ↔ List.Forall₂ Same xs ys := by
  induction xs generalizing ys with
  | nil => cases ys <;> simp [SameItems]
  | cons x xs ih =>
    rcases ys with - | ⟨y, ys⟩
    · simp [SameItems]
    · rw [SameItems, ih, List.forall₂_cons]

theorem sameEntries_iff {kvs kvs' : List (Text × Json)} :
    SameEntries kvs kvs' ↔ ∀ e ∈ defined kvs, ∃ w, (e.1, w) ∈ kvs' ∧ Same e.2 w := by
  induction kvs with
  | nil => simp [SameEntries, defined]
  | cons e kvs ih =>
    obtain ⟨k, v⟩ := e
    rw [SameEntries, ih, defined_cons]
    cases v.isUndefined <;> simp

theorem canonicalItems_eq (xs : List Json) : canonicalItems xs = xs.map canonicalJson := by
  induction xs with
  | nil => rfl
  | cons x xs ih => rw [canonicalItems, ih, List.map_cons]

theorem canonicalEntries_eq (kvs : List (Text × Json)) :
    canonicalEntries kvs = (defined kvs).map fun e ↦ (e.1, canonicalJson e.2) := by
  induction kvs with
  | nil => rfl
  | cons e kvs ih =>
    obtain ⟨k, v⟩ := e
    rw [canonicalEntries, ih, defined_cons]
    cases v.isUndefined <;> rfl

/-- An entry of an object, as it is written. -/
def member (e : Text × Json) : Text := quote e.1 ++ colon :: canonicalJson e.2

/-- The entries of an object in the order they are written. -/
def sorted (kvs : List (Text × Json)) : List (Text × Json) :=
  (defined kvs).insertionSort fun a b ↦ a.1 ≤ b.1

theorem canonicalJson_obj (kvs : List (Text × Json)) : canonicalJson (obj kvs) =
    leftBrace :: [comma].intercalate ((sorted kvs).map member) ++ [rightBrace] := by
  have hsort : (canonicalEntries kvs).insertionSort (fun a b ↦ a.1 ≤ b.1) =
      (sorted kvs).map fun e ↦ (e.1, canonicalJson e.2) := by
    rw [canonicalEntries_eq]
    exact (List.map_insertionSort (fun a b : Text × Json ↦ a.1 ≤ b.1)
      (fun a b : Text × Text ↦ a.1 ≤ b.1) _ _ fun _ _ _ _ ↦ Iff.rfl).symm
  rw [canonicalJson, hsort, List.map_map]
  rfl

theorem mem_sorted {kvs : List (Text × Json)} {e : Text × Json} :
    e ∈ sorted kvs ↔ e ∈ defined kvs := List.mem_insertionSort _

theorem mem_keys_sorted {kvs : List (Text × Json)} {k : Text} :
    k ∈ (sorted kvs).map Prod.fst ↔ k ∈ (defined kvs).map Prod.fst :=
  ((List.perm_insertionSort _ _).map _).mem_iff

/-! ## Where a text ends -/

/-- The kind of a value, by how its text starts. -/
def tag : Json → ℕ
  | undefined => 0
  | null => 0
  | bool _ => 1
  | num _ => 2
  | str _ => 3
  | arr _ => 4
  | obj _ => 5

/-- The kind a text starts with. -/
def tagOf (u : CodeUnit) : ℕ :=
  if u = 0x6E then 0
  else if u = 0x74 ∨ u = 0x66 then 1
  else if u = quotationMark then 3
  else if u = leftBracket then 4
  else if u = leftBrace then 5
  else 2

/-- A letter of a number, or not. -/
def isNumberUnit (u : CodeUnit) : Bool := Decimal.isNumberChar (Char.ofNat u.val)

/-- Whatever may follow a value: nothing, another one, or the end of what it is in. -/
def Stops (r : Text) : Prop := ∀ u ∈ r.head?, u = comma ∨ u = rightBracket ∨ u = rightBrace

theorem stops_nil : Stops [] := by rintro u ⟨⟩

theorem isNumberUnit_of_mem {n : Number} {u : CodeUnit} (h : u ∈ ofChars n.spell) :
    isNumberUnit u = true := by
  obtain ⟨c, hc, hu⟩ := List.mem_flatMap.mp h
  have hnum := Number.isNumberChar_spell hc
  have hlt : c.toNat < 0x80 := by
    simp only [Decimal.isNumberChar, Bool.or_eq_true, beq_iff_eq] at hnum
    rcases hnum with (((hd | rfl) | rfl) | rfl) | rfl
    · have hle : c.toNat ≤ 57 := (Char.isDigit_iff_toNat.mp hd).2
      omega
    all_goals decide
  rw [ofChar, if_pos (by omega), List.mem_singleton] at hu
  have hval : (Fin.ofNat 65536 c.toNat).val = c.toNat := Nat.mod_eq_of_lt (by omega)
  rw [hu, isNumberUnit, hval, Char.ofNat_toNat, hnum]

theorem Stops.not_isNumberUnit {r : Text} (h : Stops r) :
    ∀ u ∈ r.head?, ¬isNumberUnit u = true := by
  intro u hu
  rcases h u hu with rfl | rfl | rfl <;> decide

theorem num_append_inj {n m : Number} {r s : Text} (hr : Stops r) (hs : Stops s)
    (h : ofChars n.spell ++ r = ofChars m.spell ++ s) : n = m ∧ r = s := by
  obtain ⟨heq, hrs⟩ := append_inj_of_forall (fun _ ↦ isNumberUnit_of_mem)
    (fun _ ↦ isNumberUnit_of_mem) hr.not_isNumberUnit hs.not_isNumberUnit h
  have hspell := congrArg toChars heq
  rw [toChars_ofChars, toChars_ofChars] at hspell
  exact ⟨Number.spell_injective hspell, hrs⟩

theorem tagOf_of_isNumberUnit {u : CodeUnit} (h : isNumberUnit u = true) : tagOf u = 2 := by
  have hne {w : CodeUnit} (hw : isNumberUnit w = false) : u ≠ w := by
    rintro rfl
    rw [h] at hw
    cases hw
  rw [tagOf, if_neg (hne (by decide)), if_neg (not_or.mpr ⟨hne (by decide), hne (by decide)⟩),
    if_neg (hne (by decide)), if_neg (hne (by decide)), if_neg (hne (by decide))]

/-- The first letter of a text tells the kind of the value. -/
theorem head_canonicalJson (x : Json) : ∃ u t, canonicalJson x = u :: t ∧ tagOf u = x.tag := by
  cases x with
  | undefined => exact ⟨_, _, rfl, by decide⟩
  | null => exact ⟨_, _, rfl, by decide⟩
  | bool b => cases b <;> exact ⟨_, _, rfl, by decide⟩
  | num n =>
    obtain ⟨c, w, hcw⟩ := List.exists_cons_of_ne_nil n.spell_ne_nil
    obtain ⟨u, t, hut⟩ : ∃ u t, ofChars n.spell = u :: t := by
      rw [hcw, ofChars, List.flatMap_cons, ofChar]
      split_ifs <;> exact ⟨_, _, rfl⟩
    refine ⟨u, t, hut, tagOf_of_isNumberUnit (isNumberUnit_of_mem (n := n) ?_)⟩
    rw [hut]
    exact List.mem_cons_self
  | str s => exact ⟨_, _, rfl, rfl⟩
  | arr xs => exact ⟨_, _, rfl, rfl⟩
  | obj kvs => exact ⟨_, _, canonicalJson_obj kvs, rfl⟩

theorem tag_eq {x y : Json} {r s : Text} (h : canonicalJson x ++ r = canonicalJson y ++ s) :
    x.tag = y.tag := by
  obtain ⟨u, t, hx, hu⟩ := head_canonicalJson x
  obtain ⟨v, t', hy, hv⟩ := head_canonicalJson y
  rw [hx, hy] at h
  rw [← hu, ← hv, (List.cons.inj h).1]

/-- A value does not start like the end of a list. -/
theorem head_ne_rightBracket (x : Json) :
    ∃ u t, canonicalJson x = u :: t ∧ u ≠ rightBracket := by
  obtain ⟨u, t, hx, hu⟩ := head_canonicalJson x
  refine ⟨u, t, hx, ?_⟩
  rintro rfl
  have h2 : x.tag = 2 := hu.symm
  cases x with
  | num n =>
    have hmem : rightBracket ∈ ofChars n.spell := by
      change rightBracket ∈ canonicalJson (num n)
      rw [hx]
      exact List.mem_cons_self
    exact absurd (isNumberUnit_of_mem hmem) (by decide)
  | _ => cases h2

/-- Texts of values that are the same where the texts agree. -/
def Told (x : Json) : Prop :=
  ∀ y r s, x.IsJson → y.IsJson → Stops r → Stops s →
    canonicalJson x ++ r = canonicalJson y ++ s → Same x y ∧ r = s

theorem told_arr {xs : List Json} (ih : ∀ x ∈ xs, Told x) : Told (arr xs) := by
  intro y r s hx hy hr hs h
  have htag := tag_eq h
  cases y with
  | arr ys =>
    rw [IsJson, isJsonItems_iff] at hx hy
    rw [canonicalJson, canonicalJson, canonicalItems_eq, canonicalItems_eq] at h
    simp only [List.cons_append, List.append_assoc, List.nil_append, List.cons.injEq, true_and] at h
    have hstop {t : Text} (ht : ∃ c ∈ [comma, rightBracket], t.head? = some c) : Stops t := by
      obtain ⟨c, hc, ht⟩ := ht
      intro u hu
      obtain rfl : c = u := Option.some.inj (ht.symm.trans hu)
      simp only [List.mem_cons, List.not_mem_nil, or_false] at hc
      exact hc.imp_right .inl
    have hsame := intercalate_inj (R := Same) (by decide) (fun x hxs y hys r s hr hs ↦
      ih x hxs y r s (hx x hxs) (hy y hys) (hstop hr) (hstop hs)) head_ne_rightBracket h
    rw [Same, sameItems_iff]
    exact hsame
  | _ => cases htag

theorem told_obj {kvs : List (Text × Json)} (ih : ∀ e ∈ kvs, Told e.2) : Told (obj kvs) := by
  intro y r s hx hy hr hs h
  have htag := tag_eq h
  cases y with
  | obj kvs' =>
    rw [IsJson, isJsonEntries_iff] at hx hy
    rw [canonicalJson_obj, canonicalJson_obj] at h
    simp only [List.cons_append, List.append_assoc, List.nil_append, List.cons.injEq, true_and] at h
    have hstop {t : Text} (ht : ∃ c ∈ [comma, rightBrace], t.head? = some c) : Stops t := by
      obtain ⟨c, hc, ht⟩ := ht
      intro u hu
      obtain rfl : c = u := Option.some.inj (ht.symm.trans hu)
      simp only [List.mem_cons, List.not_mem_nil, or_false] at hc
      exact hc.imp_right .inr
    have hentry : ∀ e ∈ sorted kvs, ∀ e' ∈ sorted kvs',
        Apart comma rightBrace member (fun e e' ↦ e.1 = e'.1 ∧ Same e.2 e'.2) e e' := by
      rintro ⟨k, v⟩ he ⟨k', v'⟩ he' r s hr hs h
      rw [mem_sorted] at he he'
      simp only [member, List.append_assoc, List.cons_append] at h
      obtain ⟨rfl, h'⟩ := quote_append_inj h
      obtain ⟨hsame, hrs⟩ := ih _ (List.mem_of_mem_filter he) v' r s (hx.2 _ he) (hy.2 _ he')
        (hstop hr) (hstop hs) (List.cons.inj h').2
      exact ⟨⟨rfl, hsame⟩, hrs⟩
    have hquote : ∀ e, ∃ c w, member e = c :: w ∧ c ≠ rightBrace :=
      fun e ↦ ⟨quotationMark, _, rfl, by decide⟩
    obtain ⟨hall, hrs⟩ := intercalate_inj (by decide) hentry hquote h
    refine ⟨?_, hrs⟩
    have hkeys : (sorted kvs).map Prod.fst = (sorted kvs').map Prod.fst :=
      List.forall₂_eq_eq_eq ▸ List.forall₂_map_left_iff.mpr (List.forall₂_map_right_iff.mpr
        (hall.imp fun _ _ h ↦ h.1))
    rw [Same, sameEntries_iff]
    refine ⟨fun k ↦ ?_, fun e he ↦ ?_⟩
    · rw [← mem_keys_sorted, ← mem_keys_sorted, hkeys]
    · obtain ⟨⟨k', w⟩, hw, hk, hsame⟩ := exists_of_forall₂ hall (mem_sorted.mpr he)
      refine ⟨w, ?_, hsame⟩
      rw [hk]
      exact mem_sorted.mp hw
  | _ => cases htag

/-- **A text ends where it ends**, whatever follows, and tells its value. -/
theorem told (x : Json) : Told x := by
  induction x using induct with
  | undefined => exact fun _ _ _ hx ↦ absurd hx id
  | null =>
    intro y r s _ hy _ _ h
    have htag := tag_eq h
    cases y with
    | null => exact ⟨trivial, List.append_cancel_left h⟩
    | undefined => exact absurd hy id
    | _ => cases htag
  | bool b =>
    intro y r s _ _ _ _ h
    have htag := tag_eq h
    cases y with
    | bool b' =>
      cases b <;> cases b'
      · exact ⟨rfl, List.append_cancel_left h⟩
      · exact absurd (List.cons.inj h).1 (by decide)
      · exact absurd (List.cons.inj h).1 (by decide)
      · exact ⟨rfl, List.append_cancel_left h⟩
    | _ => cases htag
  | num n =>
    intro y r s _ _ hr hs h
    have htag := tag_eq h
    cases y with
    | num m => exact num_append_inj hr hs h
    | _ => cases htag
  | str t =>
    intro y r s _ _ _ _ h
    have htag := tag_eq h
    cases y with
    | str t' => exact quote_append_inj h
    | _ => cases htag
  | arr xs ih => exact told_arr ih
  | obj kvs ih => exact told_obj ih

/-! ## Values that are the same -/

/-- Of entries with distinct keys two with one key are one. -/
theorem eq_of_key {γ : Type} {kvs : List (Text × γ)} (h : (kvs.map Prod.fst).Nodup)
    {e e' : Text × γ} (he : e ∈ kvs) (he' : e' ∈ kvs) (hk : e.1 = e'.1) : e = e' :=
  List.inj_on_of_nodup_map h he he' hk

theorem nodup_defined {kvs : List (Text × Json)} (h : (kvs.map Prod.fst).Nodup) :
    ((defined kvs).map Prod.fst).Nodup :=
  h.sublist (List.filter_sublist.map _)

/-- Entries with distinct keys have one order by their keys. -/
theorem insertionSort_eq {kvs kvs' : List (Text × Text)} (h : (kvs.map Prod.fst).Nodup)
    (hperm : kvs.Perm kvs') : (kvs.insertionSort fun a b ↦ a.1 ≤ b.1) =
      kvs'.insertionSort fun a b ↦ a.1 ≤ b.1 := by
  let le (a b : Text × Text) : Prop := a.1 ≤ b.1
  have htotal : Std.Total le := ⟨fun a b ↦ le_total a.1 b.1⟩
  have htrans : IsTrans (Text × Text) le := ⟨fun _ _ _ hab hbc ↦ le_trans hab hbc⟩
  have hmem : (kvs.insertionSort le).Perm (kvs'.insertionSort le) :=
    (List.perm_insertionSort le kvs).trans (hperm.trans (List.perm_insertionSort le kvs').symm)
  refine List.Perm.eq_of_pairwise (fun a b ha hb hab hba ↦ ?_)
    (List.pairwise_insertionSort le kvs) (List.pairwise_insertionSort le kvs') hmem
  exact eq_of_key h ((List.mem_insertionSort le).mp ha)
    (hperm.mem_iff.mpr ((List.mem_insertionSort le).mp hb)) (le_antisymm hab hba)

theorem nodup_canonicalEntries {kvs : List (Text × Json)} (h : (kvs.map Prod.fst).Nodup) :
    ((canonicalEntries kvs).map Prod.fst).Nodup := by
  rw [canonicalEntries_eq, List.map_map]
  exact nodup_defined h

theorem canonicalJson_congr (x : Json) : ∀ y : Json, x.IsJson → y.IsJson → Same x y →
    canonicalJson x = canonicalJson y := by
  induction x using induct with
  | undefined => exact fun _ hx ↦ absurd hx id
  | arr xs ih =>
    intro y hx hy h
    cases y with
    | arr ys =>
      rw [IsJson, isJsonItems_iff] at hx hy
      rw [Same, sameItems_iff] at h
      have hitems : xs.map canonicalJson = ys.map canonicalJson := by
        induction h with
        | nil => rfl
        | cons hab _ ih' =>
          rw [List.forall_mem_cons] at hx hy ih
          rw [List.map_cons, List.map_cons, ih.1 _ hx.1 hy.1 hab, ih' ih.2 hx.2 hy.2]
      rw [canonicalJson, canonicalJson, canonicalItems_eq, canonicalItems_eq, hitems]
    | _ => exact absurd h id
  | obj kvs ih =>
    intro y hx hy h
    cases y with
    | obj kvs' =>
      rw [IsJson, isJsonEntries_iff] at hx hy
      rw [Same, sameEntries_iff] at h
      have hmem : ∀ e, e ∈ canonicalEntries kvs ↔ e ∈ canonicalEntries kvs' := by
        rintro ⟨k, t⟩
        rw [canonicalEntries_eq, canonicalEntries_eq, List.mem_map, List.mem_map]
        have hstep {e : Text × Json} (he : e ∈ defined kvs) :
            ∃ e' ∈ defined kvs', e'.1 = e.1 ∧ canonicalJson e.2 = canonicalJson e'.2 := by
          obtain ⟨w, hw, hsame⟩ := h.2 e he
          exact ⟨(e.1, w), hw, rfl,
            ih e (List.mem_of_mem_filter he) w (hx.2 e he) (hy.2 _ hw) hsame⟩
        constructor
        · rintro ⟨e, he, heq⟩
          obtain ⟨e', he', hk, ht⟩ := hstep he
          exact ⟨e', he', by rw [hk, ← ht]; exact heq⟩
        · rintro ⟨e', he', heq⟩
          obtain ⟨e, he, hk⟩ := List.mem_map.mp ((h.1 e'.1).mpr (List.mem_map_of_mem he'))
          obtain ⟨e'', he'', hk', ht⟩ := hstep he
          obtain rfl := eq_of_key (nodup_defined hy.1) he'' he' (hk'.trans hk)
          exact ⟨e, he, by rw [hk, ht]; exact heq⟩
      have hnodup := nodup_canonicalEntries hx.1
      have hperm := (List.perm_ext_iff_of_nodup (List.Nodup.of_map _ hnodup)
        (List.Nodup.of_map _ (nodup_canonicalEntries hy.1))).mpr hmem
      rw [canonicalJson, canonicalJson, insertionSort_eq hnodup hperm]
    | _ => exact absurd h id
  | null =>
    intro y _ _ h
    cases y with
    | null => rfl
    | _ => exact absurd h id
  | bool b =>
    intro y _ _ h
    cases y with
    | bool b' => rw [show b = b' from h]
    | _ => exact absurd h id
  | num n =>
    intro y _ _ h
    cases y with
    | num m => rw [show n = m from h]
    | _ => exact absurd h id
  | str s =>
    intro y _ _ h
    cases y with
    | str t => rw [show s = t from h]
    | _ => exact absurd h id

theorem canonicalJson_eq_iff {x y : Json} (hx : x.IsJson) (hy : y.IsJson) :
    canonicalJson x = canonicalJson y ↔ Same x y := by
  constructor
  · intro h
    exact (told x y [] [] hx hy stops_nil stops_nil (by rw [h])).1
  · exact canonicalJson_congr x y hx hy

/-! ## The digest -/

theorem isWellFormed_intercalate {ts : List Text} (h : ∀ t ∈ ts, IsWellFormed t) :
    IsWellFormed ([comma].intercalate ts) := by
  rcases ts with - | ⟨t, ts⟩
  · exact isWellFormed_nil
  · rw [List.forall_mem_cons] at h
    obtain ⟨ht, hts⟩ := h
    rw [intercalate_cons]
    refine ht.append ?_
    induction ts with
    | nil => exact isWellFormed_nil
    | cons t' ts ih =>
      rw [List.forall_mem_cons] at hts
      rw [List.flatMap_cons]
      exact (hts.1.cons rfl rfl).append (ih hts.2)

/-- The canonical text can be written as UTF-8 without loss. -/
theorem isWellFormed_canonicalJson (x : Json) : IsWellFormed (canonicalJson x) := by
  induction x using induct with
  | undefined => exact isWellFormed_ofChars _
  | null => exact isWellFormed_ofChars _
  | bool b => exact isWellFormed_ofChars _
  | num n => exact isWellFormed_ofChars _
  | str s => exact isWellFormed_quote s
  | arr xs ih =>
    rw [canonicalJson, canonicalItems_eq]
    refine (IsWellFormed.append ?_ (isWellFormed_singleton rfl rfl)).cons rfl rfl
    exact isWellFormed_intercalate (List.forall_mem_map.mpr ih)
  | obj kvs ih =>
    rw [canonicalJson_obj]
    refine (IsWellFormed.append ?_ (isWellFormed_singleton rfl rfl)).cons rfl rfl
    refine isWellFormed_intercalate (List.forall_mem_map.mpr fun e he ↦ ?_)
    have hvalue := ih e (List.mem_of_mem_filter (mem_sorted.mp he))
    exact (isWellFormed_quote e.1).append (hvalue.cons rfl rfl)

theorem digest_eq_iff {sha256 : List UInt8 → String} (hsha : Function.Injective sha256)
    {x y : Json} (hx : x.IsJson) (hy : y.IsJson) :
    digest sha256 x = digest sha256 y ↔ Same x y := by
  rw [← canonicalJson_eq_iff hx hy, digest, digest]
  constructor
  · intro h
    exact bytes_injOn (isWellFormed_canonicalJson x) (isWellFormed_canonicalJson y) (hsha h)
  · exact fun h ↦ congrArg _ (congrArg _ h)

end Json

end QwenHarness.Policy

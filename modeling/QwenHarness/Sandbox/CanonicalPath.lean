import QwenHarness.Sandbox.Canonicalize

/-!
# What a canonical path is

A path that is returned is a real one with names behind it that were looked up and not found. Where
a name was not found because it is a link that leads nowhere, the link stays in the path. Where not
even the first name of a path leads anywhere, this name is lost.
-/

namespace QwenHarness.Sandbox

open Utf16 FileTree

/-! ## Texts of paths -/

variable {p q : List Name} {cwd : List Name}

theorem intercalate_cons_flatMap (sep : CodeUnit) (x : Text) (ls : List Text) :
    [sep].intercalate (x :: ls) = x ++ ls.flatMap (sep :: ·) := by
  induction ls generalizing x with
  | nil => rw [List.intercalate_singleton, List.flatMap_nil, List.append_nil]
  | cons l ls ih =>
    rw [List.intercalate_cons_cons, ih, List.flatMap_cons, List.append_assoc]
    rfl

/-- What is in a part of a text is in the text. -/
theorem mem_of_mem_splitOn {t part : Text} {u : CodeUnit} (hpart : part ∈ t.splitOn slash)
    (hu : u ∈ part) : u ∈ t := by
  have hjoin : [slash].intercalate (t.splitOn slash) = t := List.intercalate_splitOn slash
  rw [← hjoin]
  cases hsplit : t.splitOn slash with
  | nil =>
    rw [hsplit] at hpart
    cases hpart
  | cons x ls =>
    rw [hsplit] at hpart
    rw [intercalate_cons_flatMap, List.mem_append]
    rcases List.mem_cons.mp hpart with rfl | hpart
    · exact .inl hu
    · exact .inr (List.mem_flatMap.mpr ⟨part, hpart, List.mem_cons_of_mem _ hu⟩)

theorem splitOn_toText (h : p ≠ []) : (toText p).splitOn slash = [] :: p.map Subtype.val := by
  have hjoin : toText p = [slash].intercalate ([] :: p.map Subtype.val) := by
    rw [toText, if_neg h, intercalate_cons_flatMap, List.nil_append, List.flatMap_map]
  rw [hjoin]
  refine List.splitOn_intercalate _ ?_ (List.cons_ne_nil _ _)
  exact List.forall_mem_cons.mpr ⟨List.not_mem_nil,
    List.forall_mem_map.mpr fun n _ ↦ n.property.2.1⟩

theorem isAbsolute_toText (p : List Name) : isAbsolute (toText p) = true := by
  rw [toText]
  split_ifs with h
  · rfl
  · cases p with
    | nil => exact absurd rfl h
    | cons n p => rfl

theorem resolvePart_nil : resolvePart p [] = p := by
  rw [resolvePart, if_neg (by decide), dif_neg (by decide)]

theorem resolvePart_val (n : Name) : resolvePart p n.val = p ++ [n] := by
  rw [resolvePart, if_neg n.property.2.2.2, dif_pos (isName_iff.mpr n.property)]

/-- A path is its own resolution. -/
theorem resolve_toText (p : List Name) : resolve cwd (toText p) = p := by
  rw [resolve, if_pos (isAbsolute_toText p)]
  by_cases h : p = []
  · rw [h]
    exact resolvePart_nil
  · have hnames : ∀ q : List Name, (p.map Subtype.val).foldl resolvePart q = q ++ p := by
      clear h
      induction p with
      | nil => exact fun q ↦ (List.append_nil q).symm
      | cons n p ih =>
        intro q
        rw [List.map_cons, List.foldl_cons, resolvePart_val, ih, List.append_assoc]
        rfl
    rw [splitOn_toText h, List.foldl_cons, resolvePart_nil, hnames, List.nil_append]

theorem toText_injective (h : toText p = toText q) : p = q := by
  have hp : resolve [] (toText p) = p := resolve_toText p
  rw [← hp, h, resolve_toText]

/-- The names of an absolute path are among its parts. -/
theorem mem_resolve {t : Text} (ht : isAbsolute t = true) {n : Name} (hn : n ∈ resolve cwd t) :
    n.val ∈ t.splitOn slash := by
  have hparts : ∀ (parts : List Text) (q : List Name), n ∈ parts.foldl resolvePart q →
      n ∈ q ∨ n.val ∈ parts := by
    intro parts
    induction parts with
    | nil => exact fun q h ↦ .inl h
    | cons part parts ih =>
      intro q h
      rcases ih _ h with hq | hparts
      · rw [resolvePart] at hq
        split_ifs at hq with hdots hname
        · exact .inl (List.mem_of_mem_dropLast hq)
        · rcases List.mem_append.mp hq with hq | hq
          · exact .inl hq
          · rw [List.mem_singleton.mp hq]
            exact .inr List.mem_cons_self
        · exact .inl hq
      · exact .inr (List.mem_cons_of_mem _ hparts)
  rw [resolve, if_pos ht] at hn
  exact (hparts _ _ hn).resolve_left List.not_mem_nil

/-! ## Normalization -/

namespace Platform

variable {P : Platform}

theorem nfc_eq_iff (t : Text) : P.nfc t = t ↔ ∀ part ∈ t.splitOn slash, P.nfc part = part := by
  constructor
  · intro h
    have hsplit := P.splitOn_nfc t
    rw [h] at hsplit
    exact List.map_inj_left.mp (hsplit.symm.trans (List.map_id _).symm)
  · intro h
    have hsplit : (P.nfc t).splitOn slash = t.splitOn slash := by
      rw [P.splitOn_nfc]
      exact (List.map_inj_left.mpr h).trans (List.map_id _)
    have hjoin : [slash].intercalate ((P.nfc t).splitOn slash) = P.nfc t :=
      List.intercalate_splitOn slash
    rw [← hjoin, hsplit, List.intercalate_splitOn]

theorem nfc_toText_iff (p : List Name) :
    P.nfc (toText p) = toText p ↔ ∀ n ∈ p, P.nfc n.val = n.val := by
  rw [nfc_eq_iff]
  by_cases h : p = []
  · rw [h]
    refine ⟨fun _ n hn ↦ (by cases hn), fun _ part hpart ↦ ?_⟩
    have hnil : part = [] := by
      rcases List.mem_cons.mp hpart with h | h
      · exact h
      · exact List.mem_singleton.mp h
    rw [hnil, P.nfc_nil]
  · rw [splitOn_toText h, List.forall_mem_cons, List.forall_mem_map]
    exact and_iff_right P.nfc_nil

/-- What is looked up is normalized. -/
theorem nfc_of_mem_lexical {options : CanonicalizeOptions} {input : Text}
    (habs : isAbsolute (P.expand options input) = true) {n : Name}
    (hn : n ∈ P.lexical options input) : P.nfc n.val = n.val := by
  have hpart := mem_resolve habs hn
  have hself : P.nfc (P.expand options input) = P.expand options input := P.nfc_nfc _
  exact (nfc_eq_iff _).mp hself _ hpart

/-! ## The part that exists -/

/-- A path and what is looked up of it: nothing on the way from a part to its end is found. -/
def IsMissing (P : Platform) (q s : List Name) : Prop :=
  ∀ s', s' ≠ [] → s' <+: s → P.access.realpath (q ++ s') = .error .noEntry

variable {s tail real : List Name} {n : Name}

theorem IsMissing.init (h : P.IsMissing q (s ++ [n])) : P.IsMissing q s :=
  fun s' hne hs' ↦ h s' hne (hs'.trans (List.prefix_append _ _))

theorem IsMissing.last (h : P.IsMissing q (s ++ [n])) :
    P.access.realpath (q ++ s ++ [n]) = .error .noEntry := by
  rw [List.append_assoc]
  exact h _ (List.append_ne_nil_of_right_ne_nil _ (List.cons_ne_nil n [])) List.prefix_rfl

theorem IsMissing.concat (h : P.IsMissing q s)
    (hn : P.access.realpath (q ++ s ++ [n]) = .error .noEntry) : P.IsMissing q (s ++ [n]) := by
  intro s' hne hs'
  rcases List.prefix_concat_iff.mp hs' with rfl | hs'
  · rwa [← List.append_assoc]
  · exact h s' hne hs'

theorem isMissing_nil : P.IsMissing q [] :=
  fun _ hne hs' ↦ absurd (List.prefix_nil.mp hs') hne

theorem resolvePrefix_real (h : P.access.realpath (s ++ [n]) = .ok real) :
    P.resolvePrefix (s ++ [n]).reverse tail = .ok (real ++ tail) := by
  rw [List.reverse_concat, resolvePrefix, List.reverse_cons, List.reverse_reverse, h]

theorem resolvePrefix_missing (h : P.access.realpath (s ++ [n]) = .error .noEntry) :
    P.resolvePrefix (s ++ [n]).reverse tail =
      if s = [] then .ok tail else P.resolvePrefix s.reverse (n :: tail) := by
  rw [List.reverse_concat, resolvePrefix, List.reverse_cons, List.reverse_reverse, h]
  simp only [List.reverse_eq_nil_iff]

theorem resolvePrefix_error {e : Errno} (h : P.access.realpath (s ++ [n]) = .error e)
    (he : e ≠ .noEntry) : P.resolvePrefix (s ++ [n]).reverse tail ≠ .ok p := by
  intro hp
  rw [List.reverse_concat, resolvePrefix, List.reverse_cons, List.reverse_reverse, h] at hp
  cases e with
  | noEntry => exact he rfl
  | _ => cases hp

/-- What is missing stays as it is behind the part that exists. -/
theorem resolvePrefix_of_isMissing (hq : q ≠ []) (hreal : P.access.realpath q = .ok real)
    (h : P.IsMissing q s) : P.resolvePrefix (q ++ s).reverse tail = .ok (real ++ (s ++ tail)) := by
  induction s using List.reverseRecOn generalizing tail with
  | nil =>
    obtain rfl | ⟨q, n, rfl⟩ := List.eq_nil_or_concat' q
    · exact absurd rfl hq
    · rw [List.append_nil, resolvePrefix_real hreal]
      rfl
  | append_singleton s n ih =>
    rw [← List.append_assoc, resolvePrefix_missing h.last,
      if_neg (List.append_ne_nil_of_left_ne_nil hq s), ih h.init, List.append_assoc]
    rfl

/-- Where nothing is found, the first name is lost. -/
theorem resolvePrefix_of_lost (hs : s ≠ []) (h : P.IsMissing [] s) :
    P.resolvePrefix s.reverse tail = .ok (s.tail ++ tail) := by
  induction s using List.reverseRecOn generalizing tail with
  | nil => exact absurd rfl hs
  | append_singleton s n ih =>
    have hlast := h.last
    rw [List.nil_append] at hlast
    rw [resolvePrefix_missing hlast]
    split_ifs with hnil
    · rw [hnil]
      rfl
    · rw [ih hnil h.init, List.tail_append_of_ne_nil hnil, List.append_assoc]
      rfl

/-- The three ways a path is found. -/
inductive Found (P : Platform) (s : List Name) : List Name → Prop where
  | root (hs : s = []) : Found P s []
  | part {q s' real : List Name} (hq : q ≠ []) (hs : s = q ++ s')
      (hreal : P.access.realpath q = .ok real) (h : P.IsMissing q s') : Found P s (real ++ s')
  | lost (hs : s ≠ []) (h : P.IsMissing [] s) : Found P s s.tail

theorem exists_found (h : P.resolvePrefix s.reverse tail = .ok p) :
    ∃ p', P.Found s p' ∧ p = p' ++ tail := by
  induction s using List.reverseRecOn generalizing tail with
  | nil =>
    rw [List.reverse_nil, resolvePrefix, P.access.realpath_of_isReal Tree.isReal_root] at h
    exact ⟨[], .root rfl, (Except.ok.inj h).symm⟩
  | append_singleton s n ih =>
    have hne : s ++ [n] ≠ [] := List.append_ne_nil_of_right_ne_nil _ (List.cons_ne_nil n [])
    cases hreal : P.access.realpath (s ++ [n]) with
    | ok real =>
      rw [resolvePrefix_real hreal] at h
      refine ⟨real ++ [], .part hne (List.append_nil _).symm hreal isMissing_nil, ?_⟩
      rw [List.append_nil, Except.ok.inj h]
    | error e =>
      by_cases he : e = .noEntry
      · rw [he] at hreal
        rw [resolvePrefix_missing hreal] at h
        split_ifs at h with hnil
        · subst hnil
          exact ⟨[], .lost hne (isMissing_nil.concat hreal), (Except.ok.inj h).symm⟩
        · obtain ⟨p', hfound, rfl⟩ := ih h
          cases hfound with
          | root hs => exact absurd hs hnil
          | part hq hs hok hmissing =>
            refine ⟨_, .part hq (by rw [hs, List.append_assoc]) hok
              (hmissing.concat (by rwa [← hs])), ?_⟩
            rw [List.append_assoc, List.append_assoc, List.append_assoc]
            rfl
          | lost hs hmissing =>
            refine ⟨_, .lost hne (hmissing.concat hreal), ?_⟩
            rw [List.tail_append_of_ne_nil hnil, List.append_assoc]
            rfl
      · exact absurd h (resolvePrefix_error hreal he)

theorem Found.resolvePrefix (h : P.Found s p) : P.resolvePrefix s.reverse [] = .ok p := by
  cases h with
  | root hs =>
    rw [hs, List.reverse_nil, Platform.resolvePrefix,
      P.access.realpath_of_isReal Tree.isReal_root]
    rfl
  | part hq hs hreal h => rw [hs, resolvePrefix_of_isMissing hq hreal h, List.append_nil]
  | lost hs h => rw [resolvePrefix_of_lost hs h, List.append_nil]

theorem resolvePrefix_iff : P.resolvePrefix s.reverse [] = .ok p ↔ P.Found s p := by
  refine ⟨fun h ↦ ?_, Found.resolvePrefix⟩
  obtain ⟨p', hfound, rfl⟩ := exists_found h
  rwa [List.append_nil]

theorem Found.unique {p' : List Name} (h : P.Found s p) (h' : P.Found s p') : p = p' := by
  have heq := h.resolvePrefix
  rw [h'.resolvePrefix] at heq
  exact (Except.ok.inj heq).symm

/-! ## When a path is found to be itself -/

/-- Nothing that is there on the way is a link. -/
def HasNoLinks (P : Platform) (p : List Name) : Prop := ∀ q, q <+: p → ¬ P.tree.IsLink q

theorem hasNoLinks_of_isReal (h : P.tree.IsReal p) : P.HasNoLinks p :=
  fun _ hq ↦ (h.of_prefix hq).not_isLink

theorem isMissing_of_entry (hq : P.tree.IsDirectory q) (h : P.tree.entry (q ++ [n]) = none)
    (s : List Name) : P.IsMissing q (n :: s) := by
  intro s' hne hs'
  cases s' with
  | nil => exact absurd rfl hne
  | cons m s' =>
    obtain ⟨rfl, -⟩ := List.cons_prefix_cons.mp hs'
    exact P.access.realpath_missing s' hq h

theorem found_of_isReal (h : P.tree.IsReal p) : P.Found p p := by
  by_cases hp : p = []
  · rw [hp]
    exact .root rfl
  · have hfound := Found.part hp (List.append_nil p).symm (P.access.realpath_of_isReal h)
      isMissing_nil
    rwa [List.append_nil] at hfound

theorem hasNoLinks_append (hq : P.tree.IsReal q) (h : P.tree.entry (q ++ [n]) = none)
    (s : List Name) : P.HasNoLinks (q ++ n :: s) := by
  intro q' hq' hlink
  rcases List.prefix_or_prefix_of_prefix hq' (List.prefix_append q (n :: s)) with hle | hle
  · exact (hq.of_prefix hle).not_isLink hlink
  · obtain ⟨u, rfl⟩ := hle
    cases u with
    | nil =>
      rw [List.append_nil] at hlink
      exact hq.not_isLink hlink
    | cons m u =>
      obtain ⟨rfl, -⟩ := List.cons_prefix_cons.mp ((List.prefix_append_right_inj q).mp hq')
      have hnone := Tree.entry_append_eq_none h u
      rw [List.append_assoc] at hnone
      have hsome := hlink.isSome
      rw [List.singleton_append] at hnone
      rw [hnone] at hsome
      cases hsome

/-- Behind a real directory that is not the root, what is missing stays. -/
theorem found_append_iff (hq : P.tree.IsDirectory q) (h : P.tree.entry (q ++ [n]) = none)
    (s : List Name) : P.Found (q ++ n :: s) (q ++ n :: s) ↔ q ≠ [] := by
  constructor
  · rintro hfound rfl
    have hlost := Found.lost (List.cons_ne_nil n s) (isMissing_of_entry hq h s)
    have heq := congrArg List.length (hfound.unique hlost)
    rw [List.tail_cons, List.nil_append, List.length_cons] at heq
    omega
  · exact fun hne ↦
      .part hne rfl (P.access.realpath_of_isReal hq.isReal) (isMissing_of_entry hq h s)

/-- How far a path without links exists. -/
theorem exists_real_prefix (hq : P.tree.IsReal q) (h : P.HasNoLinks (q ++ s)) :
    ∃ real s', q ++ s = real ++ s' ∧ q <+: real ∧ P.tree.IsReal real ∧
      ∀ n ∈ s'.head?, P.tree.entry (real ++ [n]) = none := by
  induction s generalizing q with
  | nil => exact ⟨q, [], rfl, List.prefix_rfl, hq, fun n hn ↦ (by cases hn)⟩
  | cons n s ih =>
    have happend : q ++ n :: s = q ++ [n] ++ s := by
      rw [List.append_assoc, List.singleton_append]
    cases hentry : P.tree.entry (q ++ [n]) with
    | none =>
      refine ⟨q, n :: s, rfl, List.prefix_rfl, hq, ?_⟩
      rintro _ ⟨⟩
      exact hentry
    | some e =>
      have hreal : P.tree.IsReal (q ++ [n]) :=
        (Tree.isLink_or_isReal (Option.isSome_of_eq_some hentry)).resolve_left
          (h _ (happend ▸ List.prefix_append _ _))
      obtain ⟨real, s', hsplit, hle, hrest⟩ := ih hreal (happend ▸ h)
      exact ⟨real, s', happend.trans hsplit, (List.prefix_append q [n]).trans hle, hrest⟩

/-- A path without links that can be looked at is found to be itself, if it begins with something
that is there. -/
theorem found_self_iff (h : P.HasNoLinks p)
    (hlook : ∀ e, P.access.lstat p = .error e → e = .noEntry) :
    P.Found p p ↔ ∀ n ∈ p.head?, (P.tree.entry [n]).isSome = true := by
  cases p with
  | nil => exact ⟨fun _ n hn ↦ (by cases hn), fun _ ↦ .root rfl⟩
  | cons n p =>
    constructor
    · rintro hfound _ ⟨⟩
      by_contra hnone
      have hentry : P.tree.entry ([] ++ [n]) = none := Option.not_isSome_iff_eq_none.mp hnone
      exact (found_append_iff P.tree.root hentry p).mp hfound rfl
    · intro hstart
      have hreal : P.tree.IsReal [n] :=
        (Tree.isLink_or_isReal (hstart n rfl)).resolve_left (h [n] (List.prefix_append [n] p))
      obtain ⟨real, s', hsplit, hle, hreal, hrest⟩ := exists_real_prefix hreal h
      have happend : n :: p = real ++ s' := hsplit
      have hne : real ≠ [] := by
        rintro rfl
        exact List.cons_ne_nil n [] (List.prefix_nil.mp hle)
      rw [happend]
      cases s' with
      | nil =>
        rw [List.append_nil]
        exact found_of_isReal hreal
      | cons m s' =>
        have hdir : P.tree.IsDirectory real := by
          by_contra hdir
          have hbelow := P.access.lstat_below s' hreal hdir (a := m)
          rw [← happend] at hbelow
          cases hlook _ hbelow
        exact (found_append_iff hdir (hrest m rfl) s').mpr hne

/-! ## What is returned -/

/-- A text within a root is a path below it. -/
theorem isPrefix_of_isWithin (h : isWithin (toText q) (toText p) = true) : q <+: p := by
  rw [isWithin, Bool.or_eq_true, beq_iff_eq] at h
  rcases h with h | h
  · rw [toText_injective h]
  · obtain rfl | ⟨q, n, rfl⟩ := List.eq_nil_or_concat' q
    · exact List.nil_prefix
    · have hne : q ++ [n] ≠ [] := List.append_ne_nil_of_right_ne_nil _ (List.cons_ne_nil n [])
      have hlast : (toText (q ++ [n])).getLast? ≠ some slash := by
        rw [toText, if_neg hne, List.flatMap_append, List.flatMap_singleton,
          List.getLast?_append_of_ne_nil _ (List.cons_ne_nil _ _),
          List.getLast?_cons_of_ne_nil n.property.1]
        exact fun hn ↦ n.property.2.1 (List.mem_of_getLast? hn)
      rw [if_neg hlast] at h
      obtain ⟨rest, hrest⟩ := List.isPrefixOf_iff_prefix.mp h
      rw [List.append_assoc, List.singleton_append] at hrest
      have hsplit := congrArg (List.splitOn slash) hrest
      rw [List.splitOn_append_cons_self, splitOn_toText hne] at hsplit
      have hp : p ≠ [] := by
        rintro rfl
        have hlength := congrArg List.length hrest
        rw [List.length_append, List.length_cons, toText, if_neg hne, toText, if_pos rfl,
          List.flatMap_append, List.length_append, List.flatMap_singleton, List.length_cons,
          List.length_singleton] at hlength
        omega
      rw [splitOn_toText hp] at hsplit
      have hpre : (q ++ [n]).map Subtype.val <+: p.map Subtype.val :=
        ⟨_, (List.cons.inj hsplit).2⟩
      exact (List.prefix_map_iff_of_injective Subtype.val_injective).mp hpre

/-- What a path that was made canonical should be. -/
structure IsCanonical (P : Platform) (options : CanonicalizeOptions) (root path : Text) : Prop where
  absolute : isAbsolute path = true
  nfc : P.nfc path = path
  within : ∃ r, P.canonicalRoot root = .ok r ∧ r <+: resolve P.cwd path
  noLinks : P.HasNoLinks (resolve P.cwd path)
  again : (P.canonicalizePath options path).map (·.path) = .ok path

/-- The path that an input is led to is normalized, and no dead link comes behind it. -/
structure IsClear (P : Platform) (s : List Name) : Prop where
  /-- The longest part of the input that leads anywhere leads to a normalized path. Where more comes
  behind, that is not the root, and what comes next is not there, not even as a link. -/
  part : ∀ q s' real, q ≠ [] → s = q ++ s' → P.access.realpath q = .ok real →
    (∀ q', q' ≠ [] → q' <+: s' → ∀ r, P.access.realpath (q ++ q') ≠ .ok r) →
    (∀ n ∈ real, P.nfc n.val = n.val) ∧
      ∀ n ∈ s'.head?, real ≠ [] ∧ ¬ P.tree.IsLink (real ++ [n])
  /-- Where no part leads anywhere, what is left without the first name begins with something that
  is there, and has no links. -/
  lost : (∀ q, q ≠ [] → q <+: s → ∀ r, P.access.realpath q ≠ .ok r) →
    P.HasNoLinks s.tail ∧ ∀ n ∈ s.tail.head?, (P.tree.entry [n]).isSome = true

variable {options : CanonicalizeOptions} {root input : Text} {c : CanonicalPath}

theorem expand_toText (p : List Name) : P.expand options (toText p) = P.nfc (toText p) := by
  have hstart : ∃ t, toText p = slash :: t := by
    rw [toText]
    split_ifs with h
    · exact ⟨[], rfl⟩
    · cases p with
      | nil => exact absurd rfl h
      | cons n p => exact ⟨_, rfl⟩
  obtain ⟨t, ht⟩ := hstart
  rw [expand, ht]
  rfl

theorem contains_toText (p : List Name) : (toText p).contains 0 = hasNul p := by
  rw [toText, hasNul]
  split_ifs with h
  · rw [h]
    rfl
  · clear h
    induction p with
    | nil => rfl
    | cons n p ih =>
      rw [List.flatMap_cons, List.any_cons, ← ih, ← List.contains_append]
      rfl

theorem inspect_path (h : P.inspect options p = .ok c) : c.path = toText p := by
  rw [inspect] at h
  cases hlook : P.access.lstat p with
  | error e =>
    rw [hlook] at h
    cases e with
    | noEntry => exact (Except.ok.inj h) ▸ rfl
    | _ => cases h
  | ok entry =>
    rw [hlook] at h
    dsimp only at h
    split_ifs at h
    · cases h
    · rw [openPath] at h
      split at h
      · cases h
      · cases h
      · split_ifs at h
        · cases h
        · exact (Except.ok.inj h) ▸ rfl

/-- A path that is looked at is there, or it is missing. -/
theorem inspect_lstat (h : P.inspect options p = .ok c) {e : Errno}
    (he : P.access.lstat p = .error e) : e = .noEntry := by
  rw [inspect, he] at h
  cases e with
  | noEntry => rfl
  | _ => cases h

/-- What has to be the case for a path to be returned. -/
structure Returns (P : Platform) (options : CanonicalizeOptions) (input : Text)
    (c : CanonicalPath) (p : List Name) : Prop where
  absolute : isAbsolute (P.expand options input) = true
  nul : (P.expand options input).contains 0 = false
  found : P.Found (P.lexical options input) p
  root : P.checkRoot options.root p = .ok ()
  inspect : P.inspect options p = .ok c

theorem hasNul_lexical (habs : isAbsolute (P.expand options input) = true)
    (hnul : (P.expand options input).contains 0 = false) :
    hasNul (P.lexical options input) = false := by
  rw [hasNul, List.any_eq_false]
  intro n hn hzero
  have hmem : (0 : CodeUnit) ∈ P.expand options input :=
    mem_of_mem_splitOn (mem_resolve habs hn) (List.contains_iff_mem.mp hzero)
  rw [List.contains_iff_mem.mpr hmem] at hnul
  cases hnul

theorem exists_returns (h : P.canonicalizePath options input = .ok c) :
    ∃ p, P.Returns options input c p := by
  rw [canonicalizePath] at h
  split_ifs at h with habs hnul
  · cases h
  · cases h
  · rw [Bool.not_eq_false] at habs
    rw [Bool.not_eq_true] at hnul
    rw [canonicalizeExistingPrefix, hasNul_lexical habs hnul, if_neg Bool.false_ne_true] at h
    cases hpre : P.resolvePrefix (P.lexical options input).reverse [] with
    | error e =>
      rw [hpre] at h
      cases h
    | ok p =>
      rw [hpre] at h
      dsimp only at h
      cases hroot : P.checkRoot options.root p with
      | error e =>
        rw [hroot] at h
        cases h
      | ok u =>
        rw [hroot] at h
        exact ⟨p, habs, hnul, resolvePrefix_iff.mp hpre, hroot, h⟩

theorem Returns.canonicalizePath {p : List Name} (h : P.Returns options input c p) :
    P.canonicalizePath options input = .ok c := by
  rw [Platform.canonicalizePath, if_neg (by rw [h.absolute]; decide),
    if_neg (by rw [h.nul]; decide), canonicalizeExistingPrefix,
    hasNul_lexical h.absolute h.nul, if_neg Bool.false_ne_true, h.found.resolvePrefix]
  dsimp only
  rw [h.root]
  exact h.inspect

theorem hasNul_append (q s : List Name) : hasNul (q ++ s) = (hasNul q || hasNul s) :=
  List.any_append

theorem Found.hasNul (h : P.Found s p) (hs : hasNul s = false) : hasNul p = false := by
  cases h with
  | root hs => rfl
  | part hq hsplit hreal h =>
    rw [hsplit, hasNul_append, Bool.or_eq_false_iff] at hs
    rw [hasNul_append, P.not_hasNul _ (P.access.isReal_realpath hreal).isSome, hs.2]
    rfl
  | lost hne h =>
    cases s with
    | nil => rfl
    | cons n s =>
      rw [Sandbox.hasNul, List.any_cons, Bool.or_eq_false_iff] at hs
      exact hs.2

theorem lexical_toText (h : P.nfc (toText p) = toText p) : P.lexical options (toText p) = p := by
  rw [lexical, expand_toText, h, resolve_toText]

theorem Returns.isCanonical_iff_exact (hroot : options.root = some root)
    (h : P.Returns options input c p) : P.IsCanonical options root c.path ↔
      (∀ n ∈ p, P.nfc n.val = n.val) ∧ P.HasNoLinks p ∧ P.Found p p := by
  have hpath := inspect_path h.inspect
  rw [hpath, ← nfc_toText_iff]
  constructor
  · intro hc
    have hlinks := hc.noLinks
    rw [resolve_toText] at hlinks
    refine ⟨hc.nfc, hlinks, ?_⟩
    have hagain := hc.again
    cases hresult : P.canonicalizePath options (toText p) with
    | error e =>
      rw [hresult] at hagain
      cases hagain
    | ok c' =>
      rw [hresult] at hagain
      obtain ⟨p', hr⟩ := exists_returns hresult
      have hsame : toText p' = toText p :=
        (inspect_path hr.inspect).symm.trans (Except.ok.inj hagain)
      have hfound := hr.found
      rwa [lexical_toText hc.nfc, toText_injective hsame] at hfound
  · rintro ⟨hnfc, hlinks, hfound⟩
    have hexpand : P.expand options (toText p) = toText p := (expand_toText p).trans hnfc
    have hr : P.Returns options (toText p) c p :=
      { absolute := by rw [hexpand, isAbsolute_toText]
        nul := by rw [hexpand, contains_toText, h.found.hasNul (hasNul_lexical h.absolute h.nul)]
        found := by rwa [lexical_toText hnfc]
        root := h.root
        inspect := h.inspect }
    refine ⟨isAbsolute_toText p, hnfc, ?_, by rwa [resolve_toText], ?_⟩
    · have hcheck := h.root
      rw [hroot, checkRoot] at hcheck
      cases hcanonical : P.canonicalRoot root with
      | error e =>
        rw [hcanonical] at hcheck
        cases hcheck
      | ok r =>
        rw [hcanonical] at hcheck
        dsimp only at hcheck
        split_ifs at hcheck with hwithin
        · refine ⟨r, rfl, ?_⟩
          rw [resolve_toText]
          exact isPrefix_of_isWithin hwithin
        · cases hcheck
    · rw [hr.canonicalizePath, ← hpath]
      rfl

/-- The part that leads anywhere is the longest one. -/
theorem eq_of_longest {q' s' s'' r : List Name} (hmissing : P.IsMissing q s')
    (hsplit : q ++ s' = q' ++ s'') (hr : P.access.realpath q' = .ok r)
    (hlongest : ∀ u, u ≠ [] → u <+: s'' → ∀ r, P.access.realpath (q' ++ u) ≠ .ok r)
    (hreal : P.access.realpath q = .ok real) : q' = q ∧ s'' = s' := by
  rcases List.append_eq_append_iff.mp hsplit with ⟨u, hu, hs⟩ | ⟨u, hu, hs⟩
  · by_cases hnil : u = []
    · subst hnil
      rw [List.append_nil] at hu
      exact ⟨hu, hs.symm⟩
    · have hnone := hmissing u hnil ⟨s'', hs.symm⟩
      rw [← hu, hr] at hnone
      cases hnone
  · by_cases hnil : u = []
    · subst hnil
      rw [List.append_nil] at hu
      exact ⟨hu.symm, hs⟩
    · exact absurd hreal (hu ▸ hlongest u hnil ⟨s', hs.symm⟩ real)

theorem IsMissing.ne_ok (h : P.IsMissing q s) {u : List Name} (hu : u ≠ []) (hle : u <+: s)
    (r : List Name) : P.access.realpath (q ++ u) ≠ .ok r := by
  rw [h u hu hle]
  exact fun h ↦ (by cases h)

theorem isClear_part_iff {s' : List Name} (hq : q ≠ []) (hsplit : s = q ++ s')
    (hreal : P.access.realpath q = .ok real) (h : P.IsMissing q s') : P.IsClear s ↔
      (∀ n ∈ real, P.nfc n.val = n.val) ∧
        ∀ n ∈ s'.head?, real ≠ [] ∧ ¬ P.tree.IsLink (real ++ [n]) := by
  constructor
  · exact fun hclear ↦ hclear.part q s' real hq hsplit hreal fun u hu hle ↦ h.ne_ok hu hle
  · intro hgood
    refine ⟨fun q' s'' r hq' hsplit' hr hlongest ↦ ?_, fun hnone ↦ ?_⟩
    · obtain ⟨rfl, rfl⟩ := eq_of_longest h (hsplit.symm.trans hsplit') hr hlongest hreal
      rw [hr] at hreal
      rwa [Except.ok.inj hreal]
    · exact absurd hreal (hnone q hq ⟨s', hsplit.symm⟩ real)

theorem isClear_lost_iff (h : P.IsMissing [] s) : P.IsClear s ↔
    P.HasNoLinks s.tail ∧ ∀ n ∈ s.tail.head?, (P.tree.entry [n]).isSome = true := by
  constructor
  · exact fun hclear ↦ hclear.lost fun u hu hle ↦ h.ne_ok hu hle
  · intro hgood
    refine ⟨fun q' s'' r hq' hsplit' hr hlongest ↦ ?_, fun _ ↦ hgood⟩
    exact absurd hr (h.ne_ok hq' ⟨s'', hsplit'.symm⟩ r)

/-- A path that was found is itself canonical exactly if the way to it is clear. -/
theorem Found.isClear_iff (h : P.Found s p) (hs : ∀ n ∈ s, P.nfc n.val = n.val)
    (hlook : ∀ e, P.access.lstat p = .error e → e = .noEntry) :
    (∀ n ∈ p, P.nfc n.val = n.val) ∧ P.HasNoLinks p ∧ P.Found p p ↔ P.IsClear s := by
  cases h with
  | root hnil =>
    subst hnil
    rw [isClear_lost_iff isMissing_nil]
    have hlinks : P.HasNoLinks [] := hasNoLinks_of_isReal Tree.isReal_root
    exact ⟨fun _ ↦ ⟨hlinks, fun n hn ↦ (by cases hn)⟩, fun _ ↦ ⟨hs, hlinks, .root rfl⟩⟩
  | lost hne hmissing =>
    rw [isClear_lost_iff hmissing]
    have hnfc : ∀ n ∈ s.tail, P.nfc n.val = n.val := fun n hn ↦ hs n (List.mem_of_mem_tail hn)
    rw [and_iff_right hnfc]
    exact and_congr_right fun hlinks ↦ found_self_iff hlinks hlook
  | part hq hsplit hreal hmissing =>
    rename_i q s' real
    rw [isClear_part_iff hq hsplit hreal hmissing]
    have hisReal := P.access.isReal_realpath hreal
    have htail : ∀ n ∈ s', P.nfc n.val = n.val :=
      fun n hn ↦ hs n (hsplit ▸ List.mem_append_right q hn)
    rw [List.forall_mem_append, and_iff_left htail]
    refine and_congr_right fun _ ↦ ?_
    cases s' with
    | nil =>
      rw [List.append_nil]
      exact ⟨fun _ n hn ↦ (by cases hn),
        fun _ ↦ ⟨hasNoLinks_of_isReal hisReal, found_of_isReal hisReal⟩⟩
    | cons n s' =>
      have hfirst := hmissing [n] (List.cons_ne_nil n []) (List.prefix_append [n] s')
      have hdir : P.tree.IsDirectory real := by
        by_contra hdir
        rw [P.access.realpath_below hreal hdir] at hfirst
        cases hfirst
      have hnotReal : ¬ P.tree.IsReal (real ++ [n]) := by
        intro hnext
        rw [P.access.realpath_next hreal hnext] at hfirst
        cases hfirst
      have hhead : (∀ m ∈ (n :: s').head?, real ≠ [] ∧ ¬ P.tree.IsLink (real ++ [m])) ↔
          real ≠ [] ∧ ¬ P.tree.IsLink (real ++ [n]) :=
        ⟨fun h ↦ h n rfl, fun h m hm ↦ Option.some.inj hm ▸ h⟩
      rw [hhead]
      constructor
      · rintro ⟨hlinks, hfound⟩
        have hlink : ¬ P.tree.IsLink (real ++ [n]) := by
          refine hlinks _ ⟨s', ?_⟩
          rw [List.append_assoc, List.singleton_append]
        have hnone : P.tree.entry (real ++ [n]) = none := by
          by_contra hsome
          exact (Tree.isLink_or_isReal (Option.isSome_iff_ne_none.mpr hsome)).elim hlink hnotReal
        exact ⟨(found_append_iff hdir hnone s').mp hfound, hlink⟩
      · rintro ⟨hne, hlink⟩
        have hnone : P.tree.entry (real ++ [n]) = none := by
          by_contra hsome
          exact (Tree.isLink_or_isReal (Option.isSome_iff_ne_none.mpr hsome)).elim hlink hnotReal
        exact ⟨hasNoLinks_append hisReal hnone s', (found_append_iff hdir hnone s').mpr hne⟩

/-- **When a path is canonical.** A path that is returned within a root is absolute, normalized,
inside the root and without links, and canonical again, exactly if the way that the input leads is
clear. -/
theorem isCanonical_iff (hroot : options.root = some root)
    (h : P.canonicalizePath options input = .ok c) :
    P.IsCanonical options root c.path ↔ P.IsClear (P.lexical options input) := by
  obtain ⟨p, hr⟩ := exists_returns h
  rw [hr.isCanonical_iff_exact hroot]
  exact hr.found.isClear_iff (fun n hn ↦ nfc_of_mem_lexical hr.absolute hn)
    fun e he ↦ inspect_lstat hr.inspect he

end Platform

/-! ## A dead link -/

def name (s : String) (h : IsName (ofString s)) : Name := ⟨ofString s, h⟩

def nameW : Name := name "w" (by decide +kernel)

def nameL : Name := name "l" (by decide +kernel)

def nameX : Name := name "x" (by decide +kernel)

def nameGone : Name := name "gone" (by decide +kernel)

/-- The directory `/w` with a link that leads nowhere. -/
def deadLink : Tree Name Stat where
  entry p :=
    if p = [] then some (.directory ⟨1, 1, 3⟩)
    else if p = [nameW] then some (.directory ⟨1, 2, 2⟩)
    else if p = [nameW, nameL] then some (.link ⟨1, 3, 1⟩ false [.down nameGone])
    else none
  root := rfl
  parent p a h := by
    split_ifs at h with hnil hw hl
    · exact absurd hnil (List.append_ne_nil_of_right_ne_nil _ (List.cons_ne_nil a []))
    · obtain ⟨rfl, -⟩ := List.append_inj' (hw.trans (List.nil_append [nameW]).symm) rfl
      rfl
    · have hsplit : p ++ [a] = [nameW] ++ [nameL] := hl
      obtain ⟨rfl, -⟩ := List.append_inj' hsplit rfl
      rfl
    · cases h

/-- Nothing is composed on this platform. -/
def deadLinkPlatform : Platform where
  nfc t := t
  nfc_nil := rfl
  nfc_nfc _ := rfl
  splitOn_nfc _ := (List.map_id _).symm
  homedir := ofString "/"
  cwd := []
  tree := deadLink
  access := deadLink.access 40
  not_hasNul p h := by
    change ((if p = [] then _ else _) : Option _).isSome = true at h
    split_ifs at h with hnil hw hl
    · rw [hnil]
      rfl
    · rw [hw]
      decide +kernel
    · rw [hl]
      decide +kernel
    · cases h
  openSync _ := none

def within (root : String) : CanonicalizeOptions := ⟨none, some (ofString root), false⟩

/-- The dead link stays in the path. And where the first name of a path is not there, it is lost. -/
theorem not_isCanonical_deadLink :
    ((deadLinkPlatform.canonicalizePath (within "/w") (ofString "/w/l/x")).map (·.path) =
        .ok (ofString "/w/l/x") ∧
      ¬ deadLinkPlatform.IsCanonical (within "/w") (ofString "/w") (ofString "/w/l/x")) ∧
    (deadLinkPlatform.canonicalizePath (within "/") (ofString "/gone/x")).map (·.path) =
      .ok (ofString "/x") := by
  refine ⟨⟨by decide +kernel, fun h ↦ ?_⟩, by decide +kernel⟩
  have hlink := h.noLinks [nameW, nameL] (by decide +kernel)
  exact hlink (by decide +kernel)

theorem isCanonical_new :
    deadLinkPlatform.IsCanonical (within "/w") (ofString "/w") (ofString "/w/x") := by
  have hreal : deadLink.IsReal [nameW] := by decide +kernel
  have hmissing : deadLinkPlatform.IsMissing [nameW] [nameX] :=
    Platform.isMissing_of_entry (by decide +kernel) (by decide +kernel) []
  have hresult : deadLinkPlatform.canonicalizePath (within "/w") (ofString "/w/x") =
      .ok ⟨ofString "/w/x", false, false, false, none, none, none⟩ := by
    decide +kernel
  refine (Platform.isCanonical_iff rfl hresult).mpr ?_
  refine (Platform.isClear_part_iff (List.cons_ne_nil nameW []) ?_
    (deadLinkPlatform.access.realpath_of_isReal hreal) hmissing).mpr ⟨fun _ _ ↦ rfl, ?_⟩
  · decide +kernel
  · rintro _ ⟨⟩
    exact ⟨List.cons_ne_nil nameW [], by decide +kernel⟩

end QwenHarness.Sandbox

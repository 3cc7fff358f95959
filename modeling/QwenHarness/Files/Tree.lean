import Mathlib.Data.List.Infix
import Mathlib.Order.Nat

/-!
# A tree of files with symbolic links

A path is a list of names from the root down. What is at a path itself is one thing, what is found
by following the links on the way is another: the path that is found is a real one, on which there
are no links.

`Access` says what may be relied on when links are followed. `Tree.access` follows them one step
after the other and gives up after a number of links, which is how an operating system does it.
-/

namespace FileTree

variable {α β : Type}

/-- A step of the target of a link. -/
inductive Step (α : Type) where
  | down (name : α)
  | up
  | stay

inductive Entry (α β : Type) where
  | directory (info : β)
  | file (info : β)
  | link (info : β) (rooted : Bool) (target : List (Step α))

namespace Entry

def isDirectory : Entry α β → Bool
  | directory _ => true
  | _ => false

def isLink : Entry α β → Bool
  | link .. => true
  | _ => false

def info : Entry α β → β
  | directory info => info
  | file info => info
  | link info _ _ => info

end Entry

structure Tree (α β : Type) where
  entry : List α → Option (Entry α β)
  root : (entry []).any Entry.isDirectory = true
  parent : ∀ p a, (entry (p ++ [a])).isSome = true → (entry p).any Entry.isDirectory = true

inductive Errno where
  | noEntry
  | notDirectory
  | loop
  | denied
deriving DecidableEq, Repr

namespace Tree

variable (t : Tree α β) {p q r : List α} {a : α}

def IsDirectory (p : List α) : Prop := (t.entry p).any Entry.isDirectory = true

def IsLink (p : List α) : Prop := (t.entry p).any Entry.isLink = true

/-- Something is there that is no link. All that is above it are directories then. -/
def IsReal (p : List α) : Prop := (t.entry p).any (fun e ↦ !e.isLink) = true

instance (p : List α) : Decidable (t.IsDirectory p) :=
  inferInstanceAs (Decidable ((t.entry p).any Entry.isDirectory = true))

instance (p : List α) : Decidable (t.IsLink p) :=
  inferInstanceAs (Decidable ((t.entry p).any Entry.isLink = true))

instance (p : List α) : Decidable (t.IsReal p) :=
  inferInstanceAs (Decidable ((t.entry p).any (fun e ↦ !e.isLink) = true))

variable {t}

theorem IsDirectory.isReal (h : t.IsDirectory p) : t.IsReal p := by
  obtain ⟨e, he, hdir⟩ := (Option.any_eq_true _ _).mp h
  refine (Option.any_eq_true _ _).mpr ⟨e, he, ?_⟩
  cases e with
  | directory info => rfl
  | _ => cases hdir

theorem IsReal.isSome (h : t.IsReal p) : (t.entry p).isSome = true := by
  obtain ⟨e, he, -⟩ := (Option.any_eq_true _ _).mp h
  rw [he]
  rfl

theorem IsReal.not_isLink (h : t.IsReal p) : ¬ t.IsLink p := by
  obtain ⟨e, he, hreal⟩ := (Option.any_eq_true _ _).mp h
  rw [IsLink, he, Option.any_some]
  cases e with
  | link info rooted target => cases hreal
  | _ => exact Bool.false_ne_true

theorem IsLink.isSome (h : t.IsLink p) : (t.entry p).isSome = true := by
  obtain ⟨e, he, -⟩ := (Option.any_eq_true _ _).mp h
  rw [he]
  rfl

theorem isLink_or_isReal (h : (t.entry p).isSome = true) : t.IsLink p ∨ t.IsReal p := by
  obtain ⟨e, he⟩ := Option.isSome_iff_exists.mp h
  rw [IsLink, IsReal, he]
  cases e with
  | link info rooted target => exact .inl rfl
  | _ => exact .inr rfl

/-- What something is below is a directory. -/
theorem isDirectory_of_append (hq : q ≠ []) (h : (t.entry (p ++ q)).isSome = true) :
    t.IsDirectory p := by
  induction q using List.reverseRecOn with
  | nil => exact absurd rfl hq
  | append_singleton q a ih =>
    rw [← List.append_assoc] at h
    have hdir : t.IsDirectory (p ++ q) := t.parent _ _ h
    by_cases hnil : q = []
    · rwa [hnil, List.append_nil] at hdir
    · exact ih hnil hdir.isReal.isSome

/-- There is nothing below what is not there. -/
theorem entry_append_eq_none (h : t.entry p = none) (q : List α) : t.entry (p ++ q) = none := by
  by_cases hq : q = []
  · rwa [hq, List.append_nil]
  · by_contra hsome
    have hdir := isDirectory_of_append hq (Option.isSome_iff_ne_none.mpr hsome)
    rw [IsDirectory, h] at hdir
    cases hdir

theorem IsReal.of_prefix (h : t.IsReal p) (hq : q <+: p) : t.IsReal q := by
  obtain ⟨s, rfl⟩ := hq
  by_cases hs : s = []
  · rwa [hs, List.append_nil] at h
  · exact (isDirectory_of_append hs h.isSome).isReal

end Tree

/-! ## Following links -/

/-- What may be relied on when links are followed. -/
structure Access (t : Tree α β) where
  /-- The real path that a path leads to. -/
  realpath : List α → Except Errno (List α)
  /-- What is at the end of a path, which may be a link. -/
  lstat : List α → Except Errno (Entry α β)
  isReal_realpath : ∀ {p r}, realpath p = .ok r → t.IsReal r
  realpath_of_isReal : ∀ {p}, t.IsReal p → realpath p = .ok p
  realpath_missing : ∀ {p} {a : α} (q), t.IsDirectory p → t.entry (p ++ [a]) = none →
    realpath (p ++ a :: q) = .error .noEntry
  realpath_next : ∀ {p r} {a : α}, realpath p = .ok r → t.IsReal (r ++ [a]) →
    realpath (p ++ [a]) = .ok (r ++ [a])
  /-- Below what is no directory, nothing is merely missing. -/
  realpath_below : ∀ {p r} {a : α}, realpath p = .ok r → ¬ t.IsDirectory r →
    realpath (p ++ [a]) = .error .notDirectory
  lstat_of_entry : ∀ {p e}, t.entry p = some e → lstat p = .ok e
  lstat_below : ∀ {p} {a : α} (q), t.IsReal p → ¬ t.IsDirectory p →
    lstat (p ++ a :: q) = .error .notDirectory

namespace Tree

variable (t : Tree α β)

/-- Take steps, until a link comes. With it go on at `jump`. -/
def walk (jump : List α → List (Step α) → Except Errno (ℕ × List α)) (links : ℕ) :
    List α → List (Step α) → Except Errno (ℕ × List α)
  | here, [] => .ok (links, here)
  | here, .stay :: steps =>
    if t.IsDirectory here then walk jump links here steps else .error .notDirectory
  | here, .up :: steps =>
    if t.IsDirectory here then walk jump links here.dropLast steps else .error .notDirectory
  | here, .down a :: steps =>
    if t.IsDirectory here then
      match t.entry (here ++ [a]) with
      | none => .error .noEntry
      | some (.link _ rooted target) => jump (if rooted then [] else here) (target ++ steps)
      | some _ => walk jump links (here ++ [a]) steps
    else .error .notDirectory

/-- Take steps and follow a number of links. What is left of that number comes with the result. -/
def follow : ℕ → List α → List (Step α) → Except Errno (ℕ × List α)
  | 0 => t.walk (fun _ _ ↦ .error .loop) 0
  | links + 1 => t.walk (follow links) (links + 1)

variable {t} {links : ℕ} {here p r : List α} {steps steps' : List (Step α)}
  {jump : List α → List (Step α) → Except Errno (ℕ × List α)}

theorem follow_nil : t.follow links here [] = .ok (links, here) := by
  cases links <;> rfl

theorem walk_append
    (hjump : ∀ here steps, jump here (steps ++ steps') =
      (jump here steps).bind fun x ↦ t.follow x.1 x.2 steps')
    (hwalk : ∀ here, t.walk jump links here steps' = t.follow links here steps') :
    t.walk jump links here (steps ++ steps') =
      (t.walk jump links here steps).bind fun x ↦ t.follow x.1 x.2 steps' := by
  induction steps generalizing here with
  | nil => exact hwalk here
  | cons step steps ih =>
    rw [List.cons_append]
    cases step with
    | stay =>
      rw [walk, walk]
      split_ifs
      · exact ih
      · rfl
    | up =>
      rw [walk, walk]
      split_ifs
      · exact ih
      · rfl
    | down a =>
      rw [walk, walk]
      split_ifs
      · cases t.entry (here ++ [a]) with
        | none => rfl
        | some e =>
          cases e with
          | link info rooted target =>
            dsimp only
            rw [← List.append_assoc, hjump]
          | _ => exact ih
      · rfl

/-- One part of the way after the other. -/
theorem follow_append (links : ℕ) (here : List α) (steps steps' : List (Step α)) :
    t.follow links here (steps ++ steps') =
      (t.follow links here steps).bind fun x ↦ t.follow x.1 x.2 steps' := by
  induction links generalizing here steps with
  | zero => exact walk_append (fun _ _ ↦ rfl) fun _ ↦ rfl
  | succ links ih => exact walk_append ih fun _ ↦ rfl

theorem isReal_root : t.IsReal [] := IsDirectory.isReal t.root

theorem isReal_walk {links' : ℕ}
    (hjump : ∀ here steps links' r, t.IsReal here → jump here steps = .ok (links', r) → t.IsReal r)
    (hhere : t.IsReal here) (h : t.walk jump links here steps = .ok (links', r)) : t.IsReal r := by
  induction steps generalizing here with
  | nil =>
    obtain ⟨-, rfl⟩ := Prod.mk.inj (Except.ok.inj h)
    exact hhere
  | cons step steps ih =>
    cases step with
    | stay =>
      rw [walk] at h
      split_ifs at h
      exact ih hhere h
    | up =>
      rw [walk] at h
      split_ifs at h
      exact ih (hhere.of_prefix (List.dropLast_prefix here)) h
    | down a =>
      rw [walk] at h
      split_ifs at h
      cases hentry : t.entry (here ++ [a]) with
      | none =>
        rw [hentry] at h
        cases h
      | some e =>
        rw [hentry] at h
        have hreal : e.isLink = false → t.IsReal (here ++ [a]) := by
          intro he
          rw [IsReal, hentry, Option.any_some, he]
          rfl
        cases e with
        | link info rooted target =>
          refine hjump _ _ _ _ ?_ h
          split_ifs
          · exact isReal_root
          · exact hhere
        | directory info => exact ih (hreal rfl) h
        | file info => exact ih (hreal rfl) h

/-- What is found is real. -/
theorem isReal_follow {links' : ℕ} (hhere : t.IsReal here)
    (h : t.follow links here steps = .ok (links', r)) : t.IsReal r := by
  induction links generalizing here steps links' r with
  | zero => exact isReal_walk (fun _ _ _ _ _ h ↦ (by cases h)) hhere h
  | succ links ih => exact isReal_walk (fun _ _ _ _ hhere h ↦ ih hhere h) hhere h

theorem follow_below (hhere : ¬ t.IsDirectory here) (step : Step α) :
    t.follow links here (step :: steps) = .error .notDirectory := by
  cases links <;> cases step <;> exact if_neg hhere

theorem follow_missing {a : α} (hhere : t.IsDirectory here) (ha : t.entry (here ++ [a]) = none) :
    t.follow links here (.down a :: steps) = .error .noEntry := by
  have hwalk : ∀ jump, t.walk jump links here (.down a :: steps) = .error .noEntry := by
    intro jump
    rw [walk, if_pos hhere, ha]
  cases links <;> exact hwalk _

theorem follow_down {a : α} (ha : t.IsReal (here ++ [a])) :
    t.follow links here (.down a :: steps) = t.follow links (here ++ [a]) steps := by
  have hdir : t.IsDirectory here := isDirectory_of_append (List.cons_ne_nil a []) ha.isSome
  have hwalk : ∀ jump, t.walk jump links here (.down a :: steps) =
      t.walk jump links (here ++ [a]) steps := by
    intro jump
    rw [walk, if_pos hdir]
    obtain ⟨e, he, hreal⟩ := (Option.any_eq_true _ _).mp ha
    rw [he]
    cases e with
    | link info rooted target => cases hreal
    | _ => rfl
  cases links <;> exact hwalk _

/-- Nothing is changed about a real path. -/
theorem follow_of_isReal (h : t.IsReal (here ++ p)) :
    t.follow links here (p.map .down ++ steps) = t.follow links (here ++ p) steps := by
  induction p generalizing here with
  | nil => rw [List.append_nil, List.map_nil, List.nil_append]
  | cons a p ih =>
    have happend : here ++ a :: p = here ++ [a] ++ p := by
      rw [List.append_assoc, List.singleton_append]
    rw [happend] at h ⊢
    rw [List.map_cons, List.cons_append, follow_down (h.of_prefix (List.prefix_append _ _)), ih h]

/-! ## Access -/

/-- The last name of a path is not followed. -/
def look (t : Tree α β) (links : ℕ) (p : List α) : Except Errno (Entry α β) :=
  match p.getLast? with
  | none => (t.entry []).elim (.error .noEntry) .ok
  | some a =>
    (t.follow links [] (p.dropLast.map .down)).bind fun x ↦
      if t.IsDirectory x.2 then (t.entry (x.2 ++ [a])).elim (.error .noEntry) .ok
      else .error .notDirectory

theorem look_append {a : α} (hp : t.IsReal p) : t.look links (p ++ [a]) =
    if t.IsDirectory p then (t.entry (p ++ [a])).elim (.error .noEntry) .ok
    else .error .notDirectory := by
  have hfollow : t.follow links [] (p.map .down ++ []) = t.follow links p [] := follow_of_isReal hp
  rw [List.append_nil, follow_nil] at hfollow
  rw [look, List.getLast?_concat, List.dropLast_concat, hfollow]
  rfl

theorem map_follow_eq_ok_iff : (t.follow links here steps).map Prod.snd = .ok r ↔
    ∃ links', t.follow links here steps = .ok (links', r) := by
  cases t.follow links here steps with
  | error e => exact ⟨fun h ↦ (by cases h), fun h ↦ (by obtain ⟨_, ⟨⟩⟩ := h)⟩
  | ok x =>
    constructor
    · intro h
      exact ⟨x.1, congrArg Except.ok (Prod.ext rfl (Except.ok.inj h))⟩
    · rintro ⟨links', h⟩
      rw [h]
      rfl

theorem follow_path (hp : t.IsReal p) (steps : List (Step α)) :
    t.follow links [] (p.map .down ++ steps) = t.follow links p steps :=
  follow_of_isReal hp

/-- How an operating system follows links, up to a number of them. -/
def access (t : Tree α β) (links : ℕ) : Access t where
  realpath p := (t.follow links [] (p.map .down)).map Prod.snd
  lstat := t.look links
  isReal_realpath h := by
    obtain ⟨links', h⟩ := map_follow_eq_ok_iff.mp h
    exact isReal_follow isReal_root h
  realpath_of_isReal h := by
    have hfollow := @follow_path _ _ t links _ h []
    rw [List.append_nil, follow_nil] at hfollow
    exact map_follow_eq_ok_iff.mpr ⟨links, hfollow⟩
  realpath_missing q hp ha := by
    rw [List.map_append, follow_path hp.isReal, List.map_cons, follow_missing hp ha]
    rfl
  realpath_next h ha := by
    obtain ⟨links', h⟩ := map_follow_eq_ok_iff.mp h
    refine map_follow_eq_ok_iff.mpr ⟨links', ?_⟩
    rw [List.map_append, follow_append, h, List.map_singleton]
    exact (follow_down ha).trans follow_nil
  realpath_below h hr := by
    obtain ⟨links', h⟩ := map_follow_eq_ok_iff.mp h
    rw [List.map_append, follow_append, h, List.map_singleton]
    exact congrArg (Except.map Prod.snd) (follow_below hr _)
  lstat_of_entry h := by
    rename_i p e
    rcases List.eq_nil_or_concat' p with rfl | ⟨q, a, rfl⟩
    · rw [look, List.getLast?_nil]
      dsimp only
      rw [h]
      rfl
    · have hdir : t.IsDirectory q :=
        isDirectory_of_append (List.cons_ne_nil a []) (Option.isSome_of_eq_some h)
      rw [look_append hdir.isReal, if_pos hdir, h]
      rfl
  lstat_below q hp hdir := by
    rename_i p a
    rcases List.eq_nil_or_concat' q with rfl | ⟨q, b, rfl⟩
    · rw [look_append hp, if_neg hdir]
    · have happend : p ++ a :: (q ++ [b]) = (p ++ a :: q) ++ [b] := by
        rw [List.append_assoc, List.cons_append]
      rw [happend, look, List.getLast?_concat, List.dropLast_concat]
      dsimp only
      rw [List.map_append, follow_path hp, List.map_cons, follow_below hdir]
      rfl

end Tree

end FileTree

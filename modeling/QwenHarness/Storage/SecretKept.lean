import QwenHarness.Storage.SecretFile

/-!
# What the encrypted file keeps

As long as nobody else writes the file, it is a finite map: what was set last under a key and not
deleted comes back, up to halves of surrogate pairs, which have no bytes. Only the names that every
object inherits are not missing where they were never set.

Somebody who can write the file but not encipher can put back what was there before, and can put a
ciphertext under another key than it was made for.
-/

namespace QwenHarness.SecretStore

open Policy (Json)
open Codec (Number)
open Utf16

variable {p : Platform} {masterKey : Text} {f : Json} {file file' : SecretFile}
  {k k' value v : Text} {salt iv key : List UInt8} {es : List (Text × Json)} {c : Ciphertext}

/-! ## The map -/

/-- What a call makes of what is held under each key. -/
def Op.remember (held : Text → Option Text) : Op → Text → Option Text
  | .set k' value _ _, k => if k = k' then some value else held k
  | .delete k' _, k => if k = k' then none else held k
  | .tamper _, k => held k

/-- What was set last under each key and not deleted, in a run in which nobody tampers. -/
def remembered (ops : List Op) : Text → Option Text := ops.foldl Op.remember fun _ ↦ none

/-- Nobody tampers. -/
def Op.isCall : Op → Bool
  | .tamper _ => false
  | _ => true

/-- What a text becomes on its way through bytes. -/
def reread (value : Text) : Text := ofChars (Utf8.decode (bytes value))

theorem reread_eq_iff : reread value = value ↔ IsWellFormed value := by
  rw [reread, bytes, Utf8.decode_encode]
  constructor
  · intro h
    exact ⟨toChars value, h.symm⟩
  · rintro ⟨cs, rfl⟩
    rw [toChars_ofChars]

/-- The file holds the map. -/
structure Holds (p : Platform) (masterKey : Text) (held : Text → Option Text) (f : Json)
    (s : List UInt8) (es : List (Text × Json)) : Prop where
  salt : property f "salt" = .str (toBase64 s)
  entries : property f "entries" = .obj es
  nodup : (es.map Prod.fst).Nodup
  missing : ∀ k, held k = none → es.lookup k = none
  live : ∀ k v, held k = some v → ∃ c : Ciphertext, es.lookup k = some c.entry ∧
    p.decipher (p.scryptSync masterKey s) c.iv c.tag c.data = some (bytes v)

/-- Whoever reads the file finds the map in it. -/
def Refines (p : Platform) (masterKey : Text) (held : Text → Option Text) (file : SecretFile) :
    Prop :=
  ∀ salt, ∃ f s es, file.read salt = .ok f ∧ Holds p masterKey held f s es

variable {held : Text → Option Text} {s : List UInt8}

theorem Holds.derived (h : Holds p masterKey held f s es) :
    derived p masterKey f = some (p.scryptSync masterKey s) := by
  rw [SecretStore.derived, h.salt, Platform.toBytes, fromBase64_toBase64, Option.map_some]

theorem refines_absent : Refines p masterKey (fun _ ↦ none) .absent :=
  fun salt ↦ ⟨_, salt, [], rfl, rfl, rfl, List.nodup_nil, fun _ _ ↦ rfl, fun _ _ h ↦ (by cases h)⟩

/-- The entries may be replaced by those of another map. -/
theorem Holds.replaced {held' : Text → Option Text} {es' : List (Text × Json)}
    (h : Holds p masterKey held f s es) (hnodup : (es'.map Prod.fst).Nodup)
    (hnone : ∀ k, held' k = none → es'.lookup k = none)
    (hsome : ∀ k v, held' k = some v → ∃ c : Ciphertext, es'.lookup k = some c.entry ∧
      p.decipher (p.scryptSync masterKey s) c.iv c.tag c.data = some (bytes v)) :
    Holds p masterKey held' (replaced f es') s es' :=
  ⟨(property_replaced _ (by decide)).trans h.salt, property_replaced_entries, hnodup, hnone, hsome⟩

theorem Refines.set (h : Refines p masterKey held file) (k value : Text) (salt iv : List UInt8) :
    ∃ file' key c, SecretStore.set p masterKey file salt iv k value = .ok (file', key, c) ∧
      Refines p masterKey (fun k' ↦ if k' = k then some value else held k') file' := by
  obtain ⟨f, s, es, hread, hf⟩ := h salt
  rw [SecretStore.set, hread]
  dsimp only
  rw [hf.derived, hf.entries, ownEntries_obj]
  refine ⟨_, _, _, rfl, fun salt' ↦ ⟨_, s, _, read_withEntries hread salt',
    hf.replaced (Assoc.nodup_alter hf.nodup) (fun k' hk' ↦ ?_) fun k' v hk' ↦ ?_⟩⟩
  · rw [Assoc.lookup_alter]
    split_ifs at hk' ⊢ with hk
    exact hf.missing k' hk'
  · rw [Assoc.lookup_alter]
    split_ifs at hk' ⊢ with hk
    · cases hk'
      exact ⟨_, rfl, p.decipher_encipher _ _ _⟩
    · exact hf.live k' v hk'

theorem Refines.delete (h : Refines p masterKey held file) (k : Text) (salt : List UInt8) :
    ∃ file', SecretStore.delete p file salt k = .ok file' ∧
      Refines p masterKey (fun k' ↦ if k' = k then none else held k') file' := by
  obtain ⟨f, s, es, hread, hf⟩ := h salt
  rw [SecretStore.delete, hread]
  dsimp only
  rw [hf.entries]
  dsimp only
  rw [ownEntries_obj, if_neg (show ¬ (!true) = true by decide)]
  by_cases habsent : (!(es.lookup k).isSome && !p.isInherited (.obj es) k) = true
  · -- Nothing is there, and the file is not written.
    rw [if_pos habsent]
    have hnone : held k = none := by
      cases hheld : held k with
      | none => rfl
      | some v =>
        obtain ⟨c, hc, -⟩ := hf.live k v hheld
        rw [hc] at habsent
        cases habsent
    refine ⟨file, rfl, ?_⟩
    have hsame : (fun k' ↦ if k' = k then none else held k') = held := by
      funext k'
      split_ifs with hk
      · rw [hk, hnone]
      · rfl
    rwa [hsame]
  · rw [if_neg habsent]
    refine ⟨_, rfl, fun salt' ↦ ⟨_, s, _, read_withEntries hread salt',
      hf.replaced ?_ (fun k' hk' ↦ ?_) fun k' v hk' ↦ ?_⟩⟩
    · exact (List.filter_sublist.map Prod.fst).nodup hf.nodup
    · rw [lookup_filter]
      split_ifs at hk' ⊢ with hk
      · rfl
      · exact hf.missing k' hk'
    · rw [lookup_filter]
      split_ifs at hk' ⊢ with hk
      exact hf.live k' v hk'

/-! ## Runs without tampering -/

theorem remembered_append (ops : List Op) (op : Op) :
    remembered (ops ++ [op]) = op.remember (remembered ops) := by
  rw [remembered, List.foldl_append]
  rfl

theorem Refines.step {op : Op} {w : World} (h : Refines p masterKey held w.file)
    (hop : op.isCall = true) :
    Refines p masterKey (op.remember held) (w.step p masterKey op).file := by
  cases op with
  | set k value salt iv =>
    obtain ⟨file', key, c, hset, h'⟩ := h.set k value salt iv
    rw [World.step, hset]
    exact h'
  | delete k salt =>
    obtain ⟨file', hdelete, h'⟩ := h.delete k salt
    rw [World.step, hdelete]
    exact h'
  | tamper file => cases hop

theorem refines_run {ops : List Op} (hops : ∀ op ∈ ops, op.isCall = true) :
    Refines p masterKey (remembered ops) (Run.run (World.step p masterKey) ops .new).file := by
  induction ops using List.reverseRecOn with
  | nil => exact refines_absent
  | append_singleton ops op ih =>
    rw [remembered_append, Run.run_append]
    exact (ih fun op hop ↦ hops op (List.mem_append_left _ hop)).step
      (hops op (List.mem_append_right _ (List.mem_singleton_self _)))

/-- What `get` makes of what is held under a key. -/
def answer (k : Text) : Option Text → Except SecretStoreError (Option Text)
  | some v => .ok (some (reread v))
  | none => if objectPrototype.contains k then .error .decryptFailed else .ok none

theorem Refines.get (h : Refines p masterKey held file) (salt : List UInt8) (k : Text) :
    SecretStore.get p masterKey file salt k = answer k (held k) := by
  obtain ⟨f, s, es, hread, hf⟩ := h salt
  rw [SecretStore.get, hread]
  dsimp only
  rw [hf.entries]
  dsimp only
  rw [getFrom, ownEntries_obj]
  cases hheld : held k with
  | none =>
    rw [hf.missing k hheld, hf.derived]
    rfl
  | some v =>
    obtain ⟨c, hc, hplain⟩ := hf.live k v hheld
    rw [hc]
    refine (getEntry_of_ciphertext hf.derived ciphertext_entry).trans ?_
    rw [hplain]
    rfl

/-- The answer is the map's. -/
theorem Refines.get_eq_iff (h : Refines p masterKey held file) (salt : List UInt8) (k : Text) :
    SecretStore.get p masterKey file salt k = .ok (held k) ↔
      (∀ v, held k = some v → IsWellFormed v) ∧
        (held k = none → objectPrototype.contains k = false) := by
  rw [h.get]
  cases held k with
  | none =>
    rw [answer]
    split_ifs with hinherited
    · exact ⟨fun h ↦ (by cases h), fun h ↦ absurd (h.2 rfl) (by rw [hinherited]; decide)⟩
    · exact ⟨fun _ ↦ ⟨fun v h ↦ (by cases h), fun _ ↦ Bool.not_eq_true _ ▸ hinherited⟩,
        fun _ ↦ rfl⟩
  | some v =>
    rw [answer, Except.ok.injEq, Option.some.injEq, reread_eq_iff]
    constructor
    · refine fun h ↦ ⟨?_, fun h ↦ (by cases h)⟩
      rintro _ ⟨⟩
      exact h
    · exact fun h ↦ h.1 v rfl

/-- The keys are those of the map. -/
theorem Refines.list (h : Refines p masterKey held file) (salt : List UInt8) :
    ∃ ks, SecretStore.list file salt = .ok ks ∧ ks.Nodup ∧ ks.Pairwise (· ≤ ·) ∧
      ∀ k, k ∈ ks ↔ ∃ v, held k = some v := by
  obtain ⟨f, s, es, hread, hf⟩ := h salt
  rw [SecretStore.list, hread]
  dsimp only
  rw [hf.entries]
  dsimp only
  rw [ownEntries_obj]
  have hperm := List.perm_insertionSort (fun a b : Text ↦ a ≤ b) (es.map Prod.fst)
  refine ⟨_, rfl, hperm.nodup_iff.mpr hf.nodup, List.pairwise_insertionSort _ _, fun k ↦ ?_⟩
  rw [hperm.mem_iff]
  constructor
  · intro hk
    cases hheld : held k with
    | some v => exact ⟨v, rfl⟩
    | none =>
      obtain ⟨e, he, rfl⟩ := List.mem_map.mp hk
      have hlookup := (Assoc.mem_iff_lookup hf.nodup).mp he
      rw [hf.missing _ hheld] at hlookup
      cases hlookup
  · rintro ⟨v, hv⟩
    obtain ⟨c, hc, -⟩ := hf.live k v hv
    exact List.mem_map_of_mem ((Assoc.mem_iff_lookup hf.nodup).mpr hc)

/-! ## Tampering -/

/-- The ciphertext that stands under a key, with the key that is derived for it. -/
def standing (p : Platform) (masterKey : Text) (file : SecretFile) (k : Text) :
    Option (List UInt8 × Ciphertext) :=
  match file.read [] with
  | .error _ => none
  | .ok f =>
    ((ownEntries (property f "entries")).lookup k).bind fun entry ↦
      (derived p masterKey f).bind fun key ↦ (ciphertext p entry).map fun c ↦ (key, c)

theorem standing_eq (hread : file.read [] = .ok f) : standing p masterKey file k =
    ((ownEntries (property f "entries")).lookup k).bind fun entry ↦
      (derived p masterKey f).bind fun key ↦ (ciphertext p entry).map fun c ↦ (key, c) := by
  rw [standing, hread]

theorem standing_absent : standing p masterKey .absent k = none := rfl

/-- The salt that is drawn matters only without a file. -/
theorem read_nil (hread : file.read salt = .ok f) (hne : file ≠ .absent) :
    file.read [] = .ok f := by
  cases file with
  | absent => exact absurd rfl hne
  | garbled => exact hread
  | parsed v => exact hread

theorem getEntry_eq_some_iff {entry : Json} : getEntry p masterKey f entry = .ok (some v) ↔
    ∃ key c plain, derived p masterKey f = some key ∧ ciphertext p entry = some c ∧
      p.decipher key c.iv c.tag c.data = some plain ∧ v = ofChars (Utf8.decode plain) := by
  constructor
  · intro h
    have hne : entry ≠ .undefined := by
      rintro rfl
      cases h
    cases hkey : derived p masterKey f with
    | none =>
      rw [getEntry, hkey] at h
      · cases h
      · exact hne
    | some key =>
      cases hc : ciphertext p entry with
      | none =>
        rw [getEntry, hkey] at h
        · dsimp only at h
          rw [decipherEntry, hc] at h
          cases h
        · exact hne
      | some c =>
        rw [getEntry_of_ciphertext hkey hc] at h
        cases hplain : p.decipher key c.iv c.tag c.data with
        | none =>
          rw [hplain] at h
          cases h
        | some plain =>
          rw [hplain] at h
          exact ⟨key, c, plain, rfl, rfl, hplain, (Option.some.inj (Except.ok.inj h)).symm⟩
  · rintro ⟨key, c, plain, hkey, hc, hplain, rfl⟩
    rw [getEntry_of_ciphertext hkey hc, hplain]
    rfl

theorem getFrom_eq_some_iff {entries : Json} : getFrom p masterKey f entries k = .ok (some v) ↔
    ∃ entry, (ownEntries entries).lookup k = some entry ∧
      getEntry p masterKey f entry = .ok (some v) := by
  rw [getFrom]
  cases hlookup : (ownEntries entries).lookup k with
  | none =>
    dsimp only
    constructor
    · intro h
      split_ifs at h
      cases h
    · rintro ⟨entry, ⟨⟩, -⟩
  | some entry =>
    constructor
    · exact fun h ↦ ⟨entry, rfl, h⟩
    · rintro ⟨_, ⟨⟩, h⟩
      exact h

theorem get_of_read (hread : file.read salt = .ok f) : get p masterKey file salt k = .ok (some v) ↔
    ∃ entry, (ownEntries (property f "entries")).lookup k = some entry ∧
      getEntry p masterKey f entry = .ok (some v) := by
  have hnone : ∀ e : SecretStoreError, Except.error e = (.ok (some v) : Except _ (Option Text)) ↔
      ∃ entry, ([] : List (Text × Json)).lookup k = some entry ∧
        getEntry p masterKey f entry = .ok (some v) := by
    refine fun e ↦ ⟨fun h ↦ (by cases h), ?_⟩
    rintro ⟨entry, ⟨⟩, -⟩
  rw [get, hread]
  dsimp only
  cases hentries : property f "entries" with
  | undefined => exact hnone _
  | null => exact hnone _
  | _ => exact getFrom_eq_some_iff

/-- `get` returns what is deciphered of the ciphertext that stands under the key. -/
theorem get_eq_some_iff (file : SecretFile) (salt : List UInt8) (k v : Text) :
    get p masterKey file salt k = .ok (some v) ↔
      ∃ key c plain, standing p masterKey file k = some (key, c) ∧
        p.decipher key c.iv c.tag c.data = some plain ∧ v = ofChars (Utf8.decode plain) := by
  by_cases hne : file = .absent
  · subst hne
    rw [standing_absent, get_of_read rfl]
    constructor
    · rintro ⟨entry, ⟨⟩, -⟩
    · rintro ⟨key, c, plain, ⟨⟩, -⟩
  · cases hread : file.read salt with
    | error e =>
      have herror : file.read [] = .error e := by
        cases file with
        | absent => exact absurd rfl hne
        | garbled => exact hread
        | parsed v => exact hread
      rw [get, hread]
      refine ⟨fun h ↦ (by cases h), ?_⟩
      rintro ⟨key, c, plain, h, -⟩
      rw [standing, herror] at h
      cases h
    | ok f =>
      rw [get_of_read hread, standing_eq (read_nil hread hne)]
      constructor
      · rintro ⟨entry, hentry, hget⟩
        obtain ⟨key, c, plain, hkey, hc, hplain, rfl⟩ := getEntry_eq_some_iff.mp hget
        refine ⟨key, c, plain, ?_, hplain, rfl⟩
        rw [hentry, Option.bind_some, hkey, Option.bind_some, hc, Option.map_some]
      · rintro ⟨key, c, plain, hstanding, hplain, rfl⟩
        obtain ⟨entry, hentry, hrest⟩ := Option.bind_eq_some_iff.mp hstanding
        obtain ⟨key', hkey, hc⟩ := Option.bind_eq_some_iff.mp hrest
        obtain ⟨c', hc', heq⟩ := Option.map_eq_some_iff.mp hc
        obtain ⟨rfl, rfl⟩ := Prod.mk.inj heq
        exact ⟨entry, hentry, getEntry_eq_some_iff.mpr ⟨key', c', plain, hkey, hc', hplain, rfl⟩⟩

/-- Only what the backend has made can be deciphered. -/
def Authentic (p : Platform) (masterKey : Text) (file : SecretFile) (seals : List Sealed) : Prop :=
  ∀ k key c, standing p masterKey file k = some (key, c) →
    (p.decipher key c.iv c.tag c.data).isSome = true → ∃ s ∈ seals, s.key = key ∧ s.ciphertext = c

/-- What is put in place of the file is not forged. -/
def Unforged (p : Platform) (masterKey : Text) (op : Op) (w : World) : Prop :=
  match op with
  | .tamper file => Authentic p masterKey file w.seals
  | _ => True

/-- What has been made is a ciphertext of what it was made for. -/
def Sealed.IsMade (p : Platform) (s : Sealed) : Prop :=
  p.encipher s.key s.ciphertext.iv (bytes s.value) = (s.ciphertext.data, s.ciphertext.tag)

structure World.Sound (p : Platform) (masterKey : Text) (w : World) : Prop where
  authentic : Authentic p masterKey w.file w.seals
  made : ∀ s ∈ w.seals, s.IsMade p

theorem Sealed.IsMade.decipher {s : Sealed} (h : s.IsMade p) :
    p.decipher s.key s.ciphertext.iv s.ciphertext.tag s.ciphertext.data = some (bytes s.value) := by
  have hdecipher := p.decipher_encipher s.key s.ciphertext.iv (bytes s.value)
  rwa [h] at hdecipher

/-- What stands under a key after other entries were written. -/
theorem standing_withEntries (hread : file.read salt = .ok f) :
    standing p masterKey (withEntries f es) k =
      (es.lookup k).bind fun entry ↦
        (derived p masterKey f).bind fun key ↦ (ciphertext p entry).map fun c ↦ (key, c) := by
  rw [standing_eq (read_withEntries hread []), property_replaced_entries, ownEntries_obj,
    derived_replaced]

/-- What is written of a file as it was stood in it before, or there was no file. -/
theorem standing_of_read (hread : file.read salt = .ok f)
    (h : (((ownEntries (property f "entries")).lookup k).bind fun entry ↦
      (derived p masterKey f).bind fun key ↦ (ciphertext p entry).map fun c ↦ (key, c)) =
        some (key, c)) : standing p masterKey file k = some (key, c) := by
  by_cases hne : file = .absent
  · subst hne
    obtain rfl := Except.ok.inj hread
    cases h
  · rw [standing_eq (read_nil hread hne), h]

theorem World.Sound.step {op : Op} {w : World} (h : w.Sound p masterKey)
    (hop : Unforged p masterKey op w) : (w.step p masterKey op).Sound p masterKey := by
  cases op with
  | set k value salt iv =>
    rw [World.step, set]
    cases hread : w.file.read salt with
    | error e => exact h
    | ok f =>
      dsimp only
      cases hkey : derived p masterKey f with
      | none => exact h
      | some key =>
        dsimp only
        refine ⟨fun k' key' c hc hplain ↦ ?_, fun s hs ↦ ?_⟩
        · rw [standing_withEntries hread, Assoc.lookup_alter] at hc
          split_ifs at hc with hk
          · rw [Option.bind_some, hkey, Option.bind_some, ciphertext_entry, Option.map_some] at hc
            obtain ⟨rfl, rfl⟩ := Prod.mk.inj (Option.some.inj hc)
            exact ⟨_, List.mem_append_right _ (List.mem_singleton_self _), rfl, rfl⟩
          · obtain ⟨s, hs, hsame⟩ := h.authentic k' key' c (standing_of_read hread hc) hplain
            exact ⟨s, List.mem_append_left _ hs, hsame⟩
        · rcases List.mem_append.mp hs with hs | hs
          · exact h.made s hs
          · rw [List.mem_singleton.mp hs]
            rfl
  | delete k salt =>
    rw [World.step, delete]
    cases hread : w.file.read salt with
    | error e => exact h
    | ok f =>
      dsimp only
      split_ifs with hobject habsent
      · exact h
      · exact h
      · refine ⟨fun k' key' c hc hplain ↦ ?_, h.made⟩
        rw [standing_withEntries hread, lookup_filter] at hc
        split_ifs at hc with hk
        · cases hc
        · exact h.authentic k' key' c (standing_of_read hread hc) hplain
  | tamper file => exact ⟨hop, h.made⟩

theorem sound_new : World.new.Sound p masterKey :=
  ⟨fun k key c h ↦ (by rw [World.new, standing_absent] at h; cases h), fun s hs ↦ (by cases hs)⟩

/-- What a ciphertext of the backend's gives, wherever it stands. -/
theorem Sealed.IsMade.get {sealed : Sealed} (h : sealed.IsMade p)
    (hstanding : standing p masterKey file k = some (sealed.key, sealed.ciphertext))
    (salt : List UInt8) :
    SecretStore.get p masterKey file salt k = .ok (some (reread sealed.value)) :=
  (get_eq_some_iff file salt k _).mpr ⟨_, _, _, hstanding, h.decipher, rfl⟩

/-- Nothing comes back under a key that was not set under it. -/
def IsFaithful (p : Platform) (masterKey : Text) (w : World) (salt : List UInt8) (k : Text) :
    Prop :=
  ∀ v, get p masterKey w.file salt k = .ok (some v) → ∃ s ∈ w.seals, s.name = k ∧ s.value = v

/-- A ciphertext that stands under a key is one of a value that was set under it. -/
def InPlace (p : Platform) (masterKey : Text) (w : World) (k : Text) : Prop :=
  ∀ s ∈ w.seals, standing p masterKey w.file k = some (s.key, s.ciphertext) →
    ∃ s' ∈ w.seals, s'.name = k ∧ s'.value = reread s.value

theorem World.Sound.isFaithful_iff {w : World} (h : w.Sound p masterKey) (salt : List UInt8)
    (k : Text) : IsFaithful p masterKey w salt k ↔ InPlace p masterKey w k := by
  constructor
  · intro hfaithful s hs hstanding
    exact hfaithful _ ((h.made s hs).get hstanding salt)
  · intro hplace v hv
    obtain ⟨key, c, plain, hstanding, hplain, rfl⟩ := (get_eq_some_iff _ _ _ _).mp hv
    obtain ⟨s, hs, rfl, rfl⟩ :=
      h.authentic k key c hstanding (by rw [hplain]; exact Option.isSome_some)
    rw [(h.made s hs).decipher] at hplain
    obtain rfl := Option.some.inj hplain
    exact hplace s hs hstanding

/-! ## Main results -/

/-- The store at the end of a run. -/
def World.after (p : Platform) (masterKey : Text) (ops : List Op) : World :=
  Run.run (World.step p masterKey) ops .new

/-- **What is kept.** Where nobody tampers, a key gives what was set last under it exactly if that
has no half of a surrogate pair, and one that is not live gives nothing exactly if it is no name
that objects inherit; the list is that of the live keys. Where the file is replaced, but nothing in
it forged, only what was set under a key comes back under it exactly if no ciphertext of anything
else was put there. -/
theorem kept_iff (p : Platform) (masterKey : Text) (ops : List Op) :
    ((∀ op ∈ ops, op.isCall = true) →
      (∀ salt k,
        get p masterKey (World.after p masterKey ops).file salt k = .ok (remembered ops k) ↔
        (∀ v, remembered ops k = some v → IsWellFormed v) ∧
          (remembered ops k = none → objectPrototype.contains k = false)) ∧
      ∀ salt, ∃ ks, list (World.after p masterKey ops).file salt = .ok ks ∧ ks.Nodup ∧
        ks.Pairwise (· ≤ ·) ∧ ∀ k, k ∈ ks ↔ ∃ v, remembered ops k = some v) ∧
    (Run.Along (World.step p masterKey) (Unforged p masterKey) ops .new →
      ∀ salt k, IsFaithful p masterKey (World.after p masterKey ops) salt k ↔
        InPlace p masterKey (World.after p masterKey ops) k) := by
  refine ⟨fun hops ↦ ?_, fun hops salt k ↦ ?_⟩
  · have h : Refines p masterKey (remembered ops) (World.after p masterKey ops).file :=
      refines_run hops
    exact ⟨h.get_eq_iff, h.list⟩
  · have h : (World.after p masterKey ops).Sound p masterKey :=
      hops.run (fun op w hw hop ↦ hw.step hop) sound_new
    exact h.isFaithful_iff salt k

/-- A platform whose tags say which key and iv they were made with. -/
def tagging : Platform where
  scryptSync _ salt := salt
  encipher key iv plain := (plain, key ++ iv)
  decipher key iv tag data := if tag = key ++ iv then some data else none
  decipher_encipher _ _ _ := if_pos rfl
  bufferFrom _ := none
  inherits _ _ := false

def emptyFile : Json :=
  .obj [(ofString "version", .num one), (ofString "salt", .str (toBase64 [1]))]

/-- The ciphertext of `x`. -/
def sealedX : Ciphertext := ⟨[2], [1, 2], [120]⟩

/-- Something is set twice, and somebody puts a file in place in which its first ciphertext stands
under a key. -/
def putBack (k : String) : List Op :=
  [.set (ofString "a") (ofString "x") [1] [2], .set (ofString "a") (ofString "y") [1] [3],
    .tamper (withEntries emptyFile [(ofString k, sealedX.entry)])]

theorem unforged_putBack (k : String) :
    Run.Along (World.step tagging []) (Unforged tagging []) (putBack k) .new := by
  refine ⟨trivial, trivial, ?_, trivial⟩
  intro k' key c h _
  have hread : (SecretFile.parsed emptyFile).read [] = .ok emptyFile := read_parsed_iff.mpr rfl
  rw [standing_withEntries hread, Assoc.lookup_cons_eq] at h
  split_ifs at h
  · rw [Option.bind_some, ciphertext_entry] at h
    obtain ⟨rfl, rfl⟩ := Prod.mk.inj (Option.some.inj h)
    exact ⟨_, List.mem_cons_self, rfl, rfl⟩
  · cases h

/-- A key that was never set is not missing, and a value comes back under a key that it was never
set under. -/
theorem not_kept_inherited :
    get tagging [] (World.after tagging [] []).file [] (ofString "toString") ≠
        .ok (remembered [] (ofString "toString")) ∧
      get tagging [] (World.after tagging [] (putBack "b")).file [] (ofString "b") =
        .ok (some (ofString "x")) ∧
      ∀ s ∈ (World.after tagging [] (putBack "b")).seals, s.name ≠ ofString "b" := by
  refine ⟨?_, ?_, ?_⟩ <;> decide +kernel

theorem kept_putBack :
    get tagging [] (World.after tagging [] ((putBack "a").take 2)).file [] (ofString "a") =
        .ok (remembered ((putBack "a").take 2) (ofString "a")) ∧
      IsFaithful tagging [] (World.after tagging [] (putBack "a")) [] (ofString "a") := by
  refine ⟨?_, ?_⟩
  · refine (((kept_iff tagging [] ((putBack "a").take 2)).1 (by decide)).1 _ _).mpr ⟨?_, ?_⟩
    · rintro _ ⟨⟩
      exact ⟨['y'], rfl⟩
    · intro h
      cases h
  · refine ((kept_iff tagging [] (putBack "a")).2 (unforged_putBack "a") _ _).mpr ?_
    have hall : ∀ s ∈ (World.after tagging [] (putBack "a")).seals,
        s.name = ofString "a" ∧ s.value = reread s.value := by
      decide +kernel
    exact fun s hs _ ↦ ⟨s, hs, hall s hs⟩

end QwenHarness.SecretStore

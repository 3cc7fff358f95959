import Mathlib.Data.List.Nodup
import Mathlib.Data.List.Perm.Lattice
import Mathlib.Data.List.Perm.Subperm

/-!
# Entries that are opened and closed once

Keys are issued one after the other. Each opens an entry, which is closed later. The account is
right if every key issued is of one entry, open or closed.
-/

variable {κ : Type}

/-- Every key issued is new, and is open or closed, once. -/
structure Accounted (issued pending settled : List κ) : Prop where
  nodup : issued.Nodup
  perm : (pending ++ settled).Perm issued

namespace Accounted

variable {issued pending settled : List κ} {k : κ}

theorem nil : Accounted ([] : List κ) [] [] := ⟨List.nodup_nil, .nil⟩

theorem nodup_append (h : Accounted issued pending settled) : (pending ++ settled).Nodup :=
  h.perm.nodup_iff.mpr h.nodup

theorem nodup_pending (h : Accounted issued pending settled) : pending.Nodup :=
  h.nodup_append.of_append_left

/-- No entry is closed twice. -/
theorem nodup_settled (h : Accounted issued pending settled) : settled.Nodup :=
  h.nodup_append.of_append_right

theorem mem_issued (h : Accounted issued pending settled) :
    k ∈ issued ↔ k ∈ pending ∨ k ∈ settled := by
  rw [← h.perm.mem_iff, List.mem_append]

/-- An entry is open exactly while its key has been issued and the entry is not closed. -/
theorem mem_pending_iff (h : Accounted issued pending settled) :
    k ∈ pending ↔ k ∈ issued ∧ k ∉ settled := by
  rw [h.mem_issued]
  constructor
  · intro hk
    exact ⟨.inl hk, List.disjoint_of_nodup_append h.nodup_append hk⟩
  · rintro ⟨hk | hk, hn⟩
    · exact hk
    · exact absurd hk hn

theorem issue (h : Accounted issued pending settled) (hk : k ∉ issued) :
    Accounted (issued ++ [k]) (pending ++ [k]) settled where
  nodup := h.nodup.append (List.nodup_singleton k) (List.disjoint_singleton.mpr hk)
  perm := by
    rw [List.append_assoc, List.singleton_append]
    exact List.perm_middle.trans
      ((h.perm.cons k).trans (List.perm_append_singleton k issued).symm)

theorem close [DecidableEq κ] (h : Accounted issued pending settled) (hk : k ∈ pending) :
    Accounted issued (pending.erase k) (settled ++ [k]) where
  nodup := h.nodup
  perm := by
    rw [← List.append_assoc]
    refine (List.perm_append_singleton k _).trans (List.Perm.trans ?_ h.perm)
    rw [← List.cons_append]
    exact (List.perm_cons_erase hk).symm.append_right settled

/-- Where nothing is open, every key issued is of a closed entry. -/
theorem mem_settled_of_closed (h : Accounted issued [] settled) (hk : k ∈ issued) : k ∈ settled :=
  (h.mem_issued.mp hk).resolve_left List.not_mem_nil

end Accounted

import Mathlib.Data.List.Perm.Basic
import Mathlib.Data.List.InsertIdx

/-! # Entries and their tickets

Things are issued one after another, and the ticket of a thing is its place in that
order. A list of entries is kept beside the tickets of what the entries stand for:
an entry comes in at the end and leaves from any place, its ticket with it. -/
namespace FreenetHarness.Lib.Tickets

variable {β : Type*} {issued entries : List β} {tickets gone : List Nat} {i n : Nat} {x : β}

/-- The tickets are those of the entries, each at most once and oldest first. -/
structure Aligned (issued : List β) (tickets : List Nat) (entries : List β) : Prop where
  entry : tickets.map (fun n => issued[n]?) = entries.map some
  sorted : tickets.Pairwise (· < ·)

namespace Aligned

theorem nil : Aligned ([] : List β) [] [] := ⟨rfl, List.Pairwise.nil⟩

theorem nodup (h : Aligned issued tickets entries) : tickets.Nodup :=
  h.sorted.imp fun hlt => Nat.ne_of_lt hlt

theorem length (h : Aligned issued tickets entries) : tickets.length = entries.length := by
  simpa using congrArg List.length h.entry

theorem lt (h : Aligned issued tickets entries) (hn : n ∈ tickets) : n < issued.length := by
  have : issued[n]? ∈ entries.map some := h.entry ▸ List.mem_map_of_mem hn
  obtain ⟨x, -, hx⟩ := List.mem_map.mp this
  exact (List.getElem?_eq_some_iff.mp hx.symm).1

/-- An entry is what its ticket was issued for. -/
theorem getElem? (h : Aligned issued tickets entries) (hn : tickets[i]? = some n) :
    issued[n]? = entries[i]? := by
  have := congrArg (fun l => l[i]?) h.entry
  simp only [List.getElem?_map, hn, Option.map_some] at this
  cases hi : entries[i]? with
  | none => simp [hi] at this
  | some x => simpa [hi] using this

theorem exists_ticket (h : Aligned issued tickets entries) (hx : x ∈ entries) :
    ∃ n ∈ tickets, issued[n]? = some x := by
  have : some x ∈ tickets.map fun n => issued[n]? := h.entry ▸ List.mem_map_of_mem hx
  obtain ⟨n, hn, hnx⟩ := List.mem_map.mp this
  exact ⟨n, hn, hnx⟩

/-- Something is issued, and its entry comes in at the end. -/
theorem issue (h : Aligned issued tickets entries) (x : β) :
    Aligned (issued ++ [x]) (tickets ++ [issued.length]) (entries ++ [x]) where
  entry := by
    have hkeep : tickets.map (fun n => (issued ++ [x])[n]?) = tickets.map fun n => issued[n]? := by
      apply List.map_congr_left
      intro n hn
      rw [List.getElem?_append_left (h.lt hn)]
    simp [hkeep, h.entry]
  sorted := by
    rw [List.pairwise_append]
    refine ⟨h.sorted, by simp, fun n hn m hm => ?_⟩
    rw [List.mem_singleton.mp hm]
    exact h.lt hn

/-- The entry at one place leaves, or none when the place is past the end. -/
theorem remove (h : Aligned issued tickets entries) (i : Nat) :
    Aligned issued (tickets.eraseIdx i) (entries.eraseIdx i) where
  entry := by
    simp only [List.eraseIdx_eq_take_drop_succ, List.map_append, List.map_take, List.map_drop,
      h.entry]
  sorted := h.sorted.eraseIdx i

/-- The ticket that leaves is the one at the place. -/
theorem leaves_iff (h : Aligned issued tickets entries) :
    (n ∈ tickets ∧ n ∉ tickets.eraseIdx i) ↔ tickets[i]? = some n := by
  rw [List.mem_eraseIdx_iff_getElem?]
  constructor
  · intro ⟨hn, hnot⟩
    obtain ⟨j, hj⟩ := List.mem_iff_getElem?.mp hn
    by_cases hji : j = i
    · rw [← hji, hj]
    · exact absurd ⟨j, hji, hj⟩ hnot
  · intro hi
    refine ⟨List.mem_of_getElem? hi, ?_⟩
    rintro ⟨j, hj, hjn⟩
    have hlt := (List.getElem?_eq_some_iff.mp hi).1
    exact hj ((List.getElem?_inj hlt h.nodup).mp (hi.trans hjn.symm)).symm

end Aligned

/-- Of the first `k` tickets each is held by an entry or gone, and once. -/
def Accounted (k : Nat) (tickets gone : List Nat) : Prop :=
  (tickets ++ gone).Perm (List.range k)

namespace Accounted

theorem nil : Accounted 0 [] [] := List.Perm.refl _

theorem issue {k : Nat} (h : Accounted k tickets gone) : Accounted (k + 1) (tickets ++ [k]) gone := by
  rw [Accounted, List.range_succ]
  refine List.Perm.trans ?_ (h.append_right [k])
  rw [List.append_assoc, List.append_assoc]
  exact List.perm_append_comm.append_left tickets

theorem remove {k : Nat} (h : Accounted k tickets gone) (i : Nat) :
    Accounted k (tickets.eraseIdx i) (gone ++ tickets[i]?.toList) := by
  refine List.Perm.trans ?_ h
  cases hi : tickets[i]? with
  | none =>
    have hle : tickets.length ≤ i := List.getElem?_eq_none_iff.mp hi
    simp [List.eraseIdx_of_length_le hle]
  | some n =>
    obtain ⟨hlt, rfl⟩ := List.getElem?_eq_some_iff.mp hi
    have hpick : (tickets[i] :: tickets.eraseIdx i).Perm tickets :=
      List.getElem_cons_eraseIdx_perm hlt
    rw [Option.toList_some, ← List.append_assoc]
    exact (List.perm_append_singleton _ _).trans (hpick.append_right gone)

theorem length {k : Nat} (h : Accounted k tickets gone) : tickets.length + gone.length = k := by
  simpa using h.length_eq

end Accounted
end FreenetHarness.Lib.Tickets

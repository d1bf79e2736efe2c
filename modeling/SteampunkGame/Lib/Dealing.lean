import Mathlib.Data.Int.ModEq
import Mathlib.Data.List.Nodup
import Mathlib.Data.List.Perm.Subperm

/-!
Things dealt in turn to holders numbered from zero: the holder of each one is
its place modulo the number of holders.
-/
namespace Dealing

def dealt (n count : Nat) : List Nat := (List.range count).map (· % n)

/-- The holders of some things in a row. -/
def window (n start count : Nat) : List Nat := (List.range' start count).map (· % n)

theorem dealt_succ (n count : Nat) : dealt n (count + 1) = dealt n count ++ [count % n] := by
  simp [dealt, List.range_succ]

@[simp] theorem window_length (n start count : Nat) : (window n start count).length = count := by
  simp [window]

theorem window_append (n start first second : Nat) :
    window n start (first + second) =
      window n start first ++ window n (start + first) second := by
  simp [window, ← List.map_append]

theorem dealt_split {n count : Nat} {front middle back : List Nat}
    (split : dealt n count = front ++ middle ++ back) :
    middle = window n front.length middle.length := by
  have total := congrArg List.length split
  simp only [dealt, List.length_map, List.length_range, List.length_append] at total
  have parts : dealt n count = window n 0 front.length ++
      window n front.length middle.length ++
        window n (front.length + middle.length) back.length := by
    rw [dealt, List.range_eq_range', total]
    have outer := window_append n 0 (front.length + middle.length) back.length
    have inner := window_append n 0 front.length middle.length
    rw [Nat.zero_add] at outer inner
    rw [← inner, ← outer]
    rfl
  rw [split] at parts
  obtain ⟨early, _⟩ := List.append_inj parts (by simp)
  obtain ⟨_, same⟩ := List.append_inj early (by simp)
  exact same

/-- Nobody gets two things before everybody got one. -/
theorem window_nodup {n : Nat} (start : Nat) {count : Nat} (short : count ≤ n) :
    (window n start count).Nodup := by
  apply List.Nodup.map_on ?_ List.nodup_range'
  intro i first j second same
  rw [List.mem_range'_1] at first second
  exact Nat.ModEq.eq_of_abs_lt same (by rw [abs_lt]; omega)

theorem window_round {n : Nat} (start : Nat) {v : Nat} (holder : v < n) :
    (window n start n).count v = 1 := by
  have distinct := window_nodup start (Nat.le_refl n)
  have inside : window n start n ⊆ List.range n := by
    intro w among
    obtain ⟨i, _, rfl⟩ := List.mem_map.mp among
    exact List.mem_range.mpr (Nat.mod_lt i (by omega))
  have same := (distinct.subperm inside).perm_of_length_le (by simp [window])
  exact List.count_eq_one_of_mem distinct (same.mem_iff.mpr (List.mem_range.mpr holder))

/-- Of things in a row no holder gets two more than another. -/
theorem window_even {n : Nat} (start count : Nat) {v w : Nat} (first : v < n) (second : w < n) :
    (window n start count).count v ≤ (window n start count).count w + 1 := by
  induction count using Nat.strong_induction_on generalizing start with
  | _ count ih =>
    by_cases short : count < n
    · have once := List.nodup_iff_count_le_one.mp (window_nodup start short.le) v
      omega
    · obtain ⟨later, rfl⟩ := Nat.exists_eq_add_of_le (not_lt.mp short)
      have rest := ih later (by omega) (start + n)
      rw [window_append, List.count_append, List.count_append, window_round start first,
        window_round start second]
      omega

end Dealing

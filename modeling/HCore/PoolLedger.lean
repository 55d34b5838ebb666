import HCore.PoolPlaces

/-!
The books of a pool with one block. What it has obtained is what it has
released together with its own block and those that its records hold, and it
has obtained nothing twice.
-/

namespace HCore.PoolModel

open CHeap

/-- The numbers of the blocks that were obtained, and of those that were released. -/
def obtainedIds (log : List Event) : List ℕ := log.filterMap fun
  | .obtained id => some id
  | _ => none

def releasedIds (log : List Event) : List ℕ := log.filterMap fun
  | .released id => some id
  | _ => none

structure Ledger (log : List Event) (calls : ℕ) (b : Block) (records : List Record) : Prop where
  fresh : ∀ id ∈ obtainedIds log, id < calls
  once : (obtainedIds log).Nodup
  balance : (obtainedIds log).Perm
    (releasedIds log ++ b.id :: (heldBlocks records).map Block.id)
  quiet : ∀ handler data, Event.ran handler data ∉ log

namespace Ledger

variable {log : List Event} {calls : ℕ} {b c : Block} {records records' : List Record}

theorem mono (g : Ledger log calls b records) {calls' : ℕ} (hle : calls ≤ calls') :
    Ledger log calls' b records :=
  { g with fresh := fun id hid => (g.fresh id hid).trans_le hle }

/-- A new block goes into a record. -/
theorem obtain (g : Ledger log calls b records) (hid : c.id = calls)
    (hperm : (heldBlocks records').Perm (c :: heldBlocks records)) :
    Ledger (log ++ [.obtained c.id]) (calls + 1) b records' := by
  have hlog : obtainedIds (log ++ [.obtained c.id]) = obtainedIds log ++ [c.id] := by
    rw [obtainedIds, List.filterMap_append]
    rfl
  have hlog' : releasedIds (log ++ [.obtained c.id]) = releasedIds log := by
    rw [releasedIds, List.filterMap_append]
    exact List.append_nil _
  refine ⟨?_, ?_, ?_, ?_⟩
  · intro id hid'
    rw [hlog] at hid'
    rcases List.mem_append.mp hid' with hold | hnew
    · exact (g.fresh id hold).trans (Nat.lt_succ_self _)
    · rw [List.mem_singleton.mp hnew, hid]
      exact Nat.lt_succ_self _
  · rw [hlog, List.nodup_append]
    refine ⟨g.once, List.nodup_singleton _, ?_⟩
    intro id hid' k hk heq
    have hlt := g.fresh id hid'
    rw [heq, List.mem_singleton.mp hk, hid] at hlt
    exact lt_irrefl _ hlt
  · rw [hlog, hlog']
    calc (obtainedIds log ++ [c.id]).Perm
          ((releasedIds log ++ b.id :: (heldBlocks records).map Block.id) ++ [c.id]) :=
        g.balance.append_right _
      _ = releasedIds log ++ (b.id :: ((heldBlocks records).map Block.id ++ [c.id])) := by
        rw [List.append_assoc, List.cons_append]
      (releasedIds log ++ (b.id :: ((heldBlocks records).map Block.id ++ [c.id]))).Perm
          (releasedIds log ++ b.id :: (heldBlocks records').map Block.id) := by
        refine List.Perm.append_left _ (List.Perm.cons _ ?_)
        exact (List.perm_append_singleton _ _).trans (hperm.map Block.id).symm
  · intro handler data hran
    rcases List.mem_append.mp hran with hold | hnew
    · exact g.quiet handler data hold
    · exact absurd (List.mem_singleton.mp hnew) (by simp)

/-- A block that a record has held is released. -/
theorem release (g : Ledger log calls b records)
    (hperm : (heldBlocks records).Perm (c :: heldBlocks records')) :
    Ledger (log ++ [.released c.id]) calls b records' := by
  have hlog : obtainedIds (log ++ [.released c.id]) = obtainedIds log := by
    rw [obtainedIds, List.filterMap_append]
    exact List.append_nil _
  have hlog' : releasedIds (log ++ [.released c.id]) = releasedIds log ++ [c.id] := by
    rw [releasedIds, List.filterMap_append]
    rfl
  refine ⟨?_, ?_, ?_, ?_⟩
  · rw [hlog]
    exact g.fresh
  · rw [hlog]
    exact g.once
  · rw [hlog, hlog']
    refine g.balance.trans ?_
    rw [List.append_assoc, List.singleton_append]
    refine List.Perm.append_left _ ?_
    calc (b.id :: (heldBlocks records).map Block.id).Perm
          (b.id :: c.id :: (heldBlocks records').map Block.id) :=
        (hperm.map Block.id).cons _
      (b.id :: c.id :: (heldBlocks records').map Block.id).Perm
          (c.id :: b.id :: (heldBlocks records').map Block.id) := List.Perm.swap ..
  · intro handler data hran
    rcases List.mem_append.mp hran with hold | hnew
    · exact g.quiet handler data hold
    · exact absurd (List.mem_singleton.mp hnew) (by simp)

/-- What the pool holds, it has obtained. -/
theorem obtained (g : Ledger log calls b records) (hc : c ∈ b :: heldBlocks records) :
    Event.obtained c.id ∈ log := by
  have hid : c.id ∈ obtainedIds log := by
    refine g.balance.mem_iff.mpr (List.mem_append_right _ ?_)
    rw [← List.map_cons]
    exact List.mem_map_of_mem hc
  obtain ⟨e, he, heq⟩ := List.mem_filterMap.mp hid
  cases e with
  | obtained id =>
    cases heq
    exact he
  | released id => cases heq
  | ran handler data => cases heq

end Ledger

end HCore.PoolModel

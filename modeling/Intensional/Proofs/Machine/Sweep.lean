import Mathlib.Algebra.Order.BigOperators.Group.List
import Mathlib.Data.Set.Card
import Intensional.Proofs.Machine.Readers

/-!
# Forgetting by a sweep

`Machine.forget` first finds all names that a name leads to, and then forgets them. A sweep does
both at once: it takes a pending name, forgets it, drops the record of its readers and makes
them pending (`Sweep.Next`). In what order they become pending is left open. The sweep walks
over a graph that it takes apart, which may have cycles.

Each step takes away a pending name, and a record is worth as many names as it has readers; so
every sweep ends (`Sweep.Next.weight_lt`). At each step the records of the names that were not
seen are those of the beginning, and a name that was seen leads only to names that were seen or
are pending (`Sweep.Sound`). So what has been forgotten at the end are the names that the first
one leads to in the graph of the beginning, whatever the order was (`Sweep.start_endsIn`).
-/

namespace Intensional

namespace Machine

/-- The state of a sweep. -/
structure Sweep where
  pending : List String
  seen : List String
  memo : Memo
  readers : Assoc String (List String)
  /-- How many of the names that were seen had values. -/
  dropped : Nat

namespace Sweep

def start (s : Machine) (e : String) : Sweep := ⟨[e], [], s.memo, s.readers, 0⟩

/-- A step of a sweep: the last name that became pending has been seen, or it is forgotten, and
its readers become pending in some order. -/
inductive Next : Sweep → Sweep → Prop
  | skip {n : String} {ns seen : List String} {memo : Memo}
      {readers : Assoc String (List String)} {dropped : Nat} (hn : n ∈ seen) :
      Next ⟨n :: ns, seen, memo, readers, dropped⟩ ⟨ns, seen, memo, readers, dropped⟩
  | visit {n : String} {ns seen callers : List String} {memo : Memo}
      {readers : Assoc String (List String)} {dropped : Nat} (hn : n ∉ seen)
      (horder : callers.Perm ((readers.get? n).getD [])) :
      Next ⟨n :: ns, seen, memo, readers, dropped⟩
        ⟨callers ++ ns, n :: seen, memo.forget n, readers.erase n,
          dropped + if memo.holds n then 1 else 0⟩

/-- However a sweep goes on it comes to an end, and `P` holds there. -/
inductive EndsIn (P : Sweep → Prop) : Sweep → Prop
  | done {w : Sweep} (h : w.pending = []) (hP : P w) : EndsIn P w
  | next {w : Sweep} (hgo : ∃ w', Next w w') (hall : ∀ w', Next w w' → EndsIn P w') : EndsIn P w

variable {s : Machine} {e : String} {w w' : Sweep} {P : Sweep → Prop}

/-! ## Every sweep ends -/

/-- The pending names, and those that the records may still bring in. -/
def weight (w : Sweep) : Nat := w.pending.length + (w.readers.map fun r => r.2.length).sum

/-- A record that is erased gives away its readers. -/
theorem sum_erase_le (n : String) (readers : Assoc String (List String)) :
    ((readers.erase n).map fun r => r.2.length).sum + ((readers.get? n).getD []).length ≤
      (readers.map fun r => r.2.length).sum := by
  have sum_le : ∀ rs : Assoc String (List String),
      ((rs.erase n).map fun r => r.2.length).sum ≤ (rs.map fun r => r.2.length).sum :=
    fun rs => (List.filter_sublist.map _).sum_le_sum fun _ _ => Nat.zero_le _
  induction readers with
  | nil => exact Nat.le_refl _
  | cons r rs ih =>
    have hcons : Assoc.erase (r :: rs) n =
        if r.1 == n then Assoc.erase rs n else r :: Assoc.erase rs n := by
      rw [Assoc.erase, List.filter_cons]
      cases r.1 == n <;> rfl
    rw [hcons, Assoc.get?_cons, List.map_cons, List.sum_cons]
    split
    · have := sum_le rs
      rw [Option.getD_some]
      omega
    · rw [List.map_cons, List.sum_cons]
      omega

theorem Next.weight_lt (h : Next w w') : w'.weight < w.weight := by
  cases h with
  | skip _ =>
    simp only [weight, List.length_cons]
    omega
  | @visit n ns seen callers memo readers dropped _ horder =>
    have hreaders := sum_erase_le n readers
    have hlength := horder.length_eq
    simp only [weight, List.length_cons, List.length_append]
    omega

theorem exists_next (h : w.pending ≠ []) : ∃ w', Next w w' := by
  obtain ⟨_ | ⟨n, ns⟩, seen, memo, readers, dropped⟩ := w
  · exact absurd rfl h
  · by_cases hn : n ∈ seen
    · exact ⟨_, .skip hn⟩
    · exact ⟨_, .visit hn (.refl _)⟩

/-- What a step keeps holds at the end. -/
theorem endsIn_of_kept {I : Sweep → Prop} (hkeep : ∀ w w', Next w w' → I w → I w')
    (hend : ∀ w, w.pending = [] → I w → P w) {w : Sweep} (h : I w) : EndsIn P w := by
  induction hw : w.weight using Nat.strong_induction_on generalizing w with
  | _ size ih =>
    by_cases hpending : w.pending = []
    · exact .done hpending (hend w hpending h)
    · refine .next (exists_next hpending) fun w' hnext => ?_
      exact ih _ (hw ▸ hnext.weight_lt) (hkeep w w' hnext h) rfl

/-! ## What a sweep forgets -/

/-- What holds during the sweep of `s` that begins with `e`. -/
structure Sound (s : Machine) (e : String) (w : Sweep) : Prop where
  begun : e ∈ w.seen ∨ e ∈ w.pending
  led : ∀ n, n ∈ w.seen ∨ n ∈ w.pending → s.Leads e n
  closed : ∀ m ∈ w.seen, ∀ n, AskedBy s.readers m n → n ∈ w.seen ∨ n ∈ w.pending
  nodup : w.seen.Nodup
  memo : w.memo = s.memo.without w.seen
  readers : w.readers = s.readers.without w.seen
  dropped : w.dropped = (w.seen.filter s.memo.holds).length

theorem sound_start (s : Machine) (e : String) : Sound s e (start s e) where
  begun := .inr (List.mem_singleton.mpr rfl)
  led n hn := by
    rcases hn with hn | hn
    · cases hn
    · rw [List.mem_singleton.mp hn]
      exact .refl
  closed m hm := by cases hm
  nodup := List.nodup_nil
  memo := by rw [start, Memo.without, Assoc.without_nil]
  readers := (Assoc.without_nil _).symm
  dropped := rfl

theorem Sound.next (h : Sound s e w) (hnext : Next w w') : Sound s e w' := by
  cases hnext with
  | @skip n ns seen memo readers dropped hn =>
    have hout : ∀ m, m ∈ seen ∨ m ∈ n :: ns → m ∈ seen ∨ m ∈ ns := by
      rintro m (hm | hm)
      · exact .inl hm
      · rcases List.mem_cons.mp hm with rfl | hm
        · exact .inl hn
        · exact .inr hm
    exact { h with
      begun := hout e h.begun
      led := fun m hm => h.led m (hm.imp id (List.mem_cons_of_mem n))
      closed := fun m hm m' hmm' => hout m' (h.closed m hm m' hmm') }
  | @visit n ns seen callers memo readers dropped hn horder =>
    obtain rfl : memo = s.memo.without seen := h.memo
    obtain rfl : readers = s.readers.without seen := h.readers
    obtain rfl : dropped = (seen.filter s.memo.holds).length := h.dropped
    have hcallers : ∀ m, m ∈ callers ↔ AskedBy s.readers n m := fun m => by
      rw [horder.mem_iff, Assoc.get?_without, if_neg hn, AskedBy]
    have hout : ∀ m, m ∈ seen ∨ m ∈ n :: ns → m ∈ n :: seen ∨ m ∈ callers ++ ns := by
      rintro m (hm | hm)
      · exact .inl (List.mem_cons_of_mem n hm)
      · rcases List.mem_cons.mp hm with rfl | hm
        · exact .inl (List.mem_cons_self ..)
        · exact .inr (List.mem_append_right _ hm)
    have hlast : s.Leads e n := h.led n (.inr (List.mem_cons_self ..))
    refine ⟨hout e h.begun, ?led, ?closed, List.nodup_cons.mpr ⟨hn, h.nodup⟩, ?memo,
      Assoc.erase_without _, ?dropped⟩
    case led =>
      rintro m (hm | hm)
      · rcases List.mem_cons.mp hm with rfl | hm
        · exact hlast
        · exact h.led m (.inl hm)
      · rcases List.mem_append.mp hm with hm | hm
        · exact hlast.tail ((hcallers m).mp hm)
        · exact h.led m (.inr (List.mem_cons_of_mem n hm))
    case closed =>
      intro m hm m' hmm'
      rcases List.mem_cons.mp hm with rfl | hm
      · exact .inr (List.mem_append_left _ ((hcallers m').mpr hmm'))
      · exact hout m' (h.closed m hm m' hmm')
    case memo =>
      rw [Memo.forget, Memo.without, Memo.without, Assoc.erase_without]
    case dropped =>
      have hholds : (s.memo.without seen).holds n = s.memo.holds n := by
        rw [Memo.holds, Memo.holds, Assoc.contains, Assoc.contains, Memo.without,
          Assoc.get?_without, if_neg hn]
      rw [hholds, List.filter_cons]
      split <;> rfl

/-- At the end the names that were seen are those that the first one leads to. -/
theorem Sound.mem_seen (h : Sound s e w) (hend : w.pending = []) {n : String} :
    n ∈ w.seen ↔ s.Leads e n := by
  have hout : ∀ m, m ∈ w.seen ∨ m ∈ w.pending → m ∈ w.seen := fun m hm =>
    hm.resolve_right (by rw [hend]; exact List.not_mem_nil)
  refine ⟨fun hn => h.led n (.inl hn), fun hn => ?_⟩
  induction hn with
  | refl => exact hout e h.begun
  | tail _ hmn ih => exact hout _ (h.closed _ ih _ hmn)

/-- Every sweep ends, and has forgotten what forgetting forgets. -/
theorem start_endsIn (s : Machine) (e : String) : EndsIn (fun w =>
    w.memo = (s.forget e).memo ∧ w.readers = (s.forget e).readers ∧
      s.stats.invalidations + w.dropped = (s.forget e).stats.invalidations) (start s e) := by
  refine endsIn_of_kept (fun _ _ hnext h => Sound.next h hnext) ?_ (sound_start s e)
  intro w hend h
  have hsame : ∀ n, n ∈ w.seen ↔ n ∈ s.allReaders e := fun n =>
    (h.mem_seen hend).trans mem_allReaders.symm
  have hperm : w.seen.Perm (s.allReaders e) :=
    (List.perm_ext_iff_of_nodup h.nodup (s.nodup_allReaders e)).mpr hsame
  refine ⟨?_, ?_, ?_⟩
  · rw [h.memo, memo_forget, Memo.without, Memo.without, Assoc.without_congr _ hsame]
  · rw [h.readers, readers_forget, Assoc.without_congr _ hsame]
  · rw [h.dropped, (hperm.filter _).length_eq]
    rfl

end Sweep

/-! ## What forgetting counts -/

/-- Forgetting counts the names that it leads to and that have values. -/
theorem invalidations_forget (s : Machine) (e : String) : (s.forget e).stats.invalidations =
    s.stats.invalidations + {n | s.Leads e n ∧ s.memo.holds n = true}.ncard := by
  have hset : {n | s.Leads e n ∧ s.memo.holds n = true} =
      (((s.allReaders e).filter s.memo.holds).toFinset : Set String) := by
    ext n
    simp [mem_allReaders]
  rw [hset, Set.ncard_coe_finset, List.toFinset_card_of_nodup ((s.nodup_allReaders e).filter _)]
  rfl

end Machine

end Intensional

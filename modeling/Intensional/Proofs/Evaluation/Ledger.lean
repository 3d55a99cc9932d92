import Intensional.Proofs.Evaluation.Stores

/-!
# The call trees of remembered values

The call tree of a value has all names that were asked for while it was computed, those without
equations included. Where a remembered value was used, the tree goes on with the tree of that
value. A ledger has the names in the tree of every remembered value; it is kept beside the
machine, from the calls that an evaluation makes (`Call.settle`).

The machine itself keeps only who has asked for whom. This is enough: from every name in the tree
of a remembered value the readers lead to the name of the value (`Ledger.Sound`). Evaluations keep
it so, whether they end well or not (`Program.ledger_kept`). A name that is asked for leads to the
name under evaluation by one reader, and what stands in its tree leads to it.
-/

namespace Intensional

open Machine

/-- The names in the call tree of the value that is remembered for a name at a context. -/
def Ledger : Type := String → Context → List String

namespace Ledger

def empty : Ledger := fun _ _ => []

/-- A value of `n` has been remembered that is found on the way of `k`: its tree is this one. -/
def record (L : Ledger) (n : String) (k : Context) (way : List Dim) (tree : List String) : Ledger :=
  fun m l => if m = n ∧ (way.all fun d => k.get? d == l.get? d) = true then tree else L m l

end Ledger

/-! ## Keeping the ledger -/

namespace Visit

/-- The way on which a value is found after the visit. -/
def way (v : Visit) : List Dim := ((v.after.memo.known? v.name v.context).map Prod.snd).getD []

/-- The names in the tree of a call, from those that its equations have called and from the tree
of a value that it has found. -/
def tree (v : Visit) (below : List String) (L : Ledger) : List String :=
  v.name :: (below ++
    match v.course with
    | .remembered => L v.name v.context
    | _ => [])

end Visit

namespace Call

mutual

/-- The names in the tree of a call, and the ledger after it. -/
def settle (p : Program) : Call → Ledger → List String × Ledger
  | mk v inner, L =>
    let below := settleAll p inner L
    let tree := v.tree below.1 below.2
    (tree, (p.stored? v).elim below.2 fun _ => below.2.record v.name v.context v.way tree)

/-- The names in the trees of some calls, one after the other, and the ledger after them. -/
def settleAll (p : Program) : List Call → Ledger → List String × Ledger
  | [], L => ([], L)
  | c :: cs, L =>
    let first := settle p c L
    let rest := settleAll p cs first.2
    (first.1 ++ rest.1, rest.2)

end

variable {p : Program}

theorem settleAll_append (cs ds : List Call) (L : Ledger) : settleAll p (cs ++ ds) L =
    ((settleAll p cs L).1 ++ (settleAll p ds (settleAll p cs L).2).1,
      (settleAll p ds (settleAll p cs L).2).2) := by
  induction cs generalizing L with
  | nil => rfl
  | cons c cs ih => rw [List.cons_append, settleAll, ih, settleAll, List.append_assoc]

theorem settleAll_singleton (c : Call) (L : Ledger) : settleAll p [c] L = settle p c L := by
  rw [settleAll, settleAll, List.append_nil]

end Call

/-! ## Sound ledgers -/

namespace Ledger

variable {L : Ledger} {s s' : Machine} {n : String} {k : Context}

/-- The names in the tree of every remembered value lead to the name of the value. -/
def Sound (L : Ledger) (s : Machine) : Prop :=
  ∀ n k, (s.memo.known? n k).isSome = true → n ∈ L n k ∧ ∀ m ∈ L n k, s.Leads m n

theorem sound_of_empty (h : ∀ n k, s.memo.known? n k = none) : L.Sound s := by
  intro n k hsome
  rw [h] at hsome
  cases hsome

namespace Sound

theorem mono (hL : L.Sound s) (htries : s'.memo.tries = s.memo.tries)
    (hreaders : ∀ m n, AskedBy s.readers m n → AskedBy s'.readers m n) : L.Sound s' := by
  intro n k hsome
  rw [Memo.known?_congr htries] at hsome
  obtain ⟨hn, hleads⟩ := hL n k hsome
  exact ⟨hn, fun m hm => Relation.ReflTransGen.mono hreaders _ _ (hleads m hm)⟩

/-- What is left after forgetting is as it was. -/
theorem forget (hL : L.Sound s) (e : String) : L.Sound (s.forget e) := by
  intro n k hsome
  rw [known?_forget] at hsome
  split at hsome
  · cases hsome
  · rename_i hn
    obtain ⟨hself, hleads⟩ := hL n k hsome
    exact ⟨hself, fun m hm => (hleads m hm).forget hn⟩

/-- A value that is remembered anew comes with its tree. -/
theorem stored (hL : L.Sound s) {dims : IndexSet} {v : Value} {tree : List String}
    (hstore : s.memo.store n k dims v = .ok s'.memo) (hreaders : s'.readers = s.readers)
    (hself : n ∈ tree) (htree : ∀ m ∈ tree, s'.Leads m n) :
    (L.record n k (((s'.memo.known? n k).map Prod.snd).getD []) tree).Sound s' := by
  obtain ⟨way, hway⟩ := Memo.known?_store_self hstore
  rw [hway, Option.map_some, Option.getD_some]
  intro m l hsome
  rw [record]
  by_cases hsame : m = n ∧ (way.all fun d => k.get? d == l.get? d) = true
  · rw [if_pos hsame]
    obtain ⟨rfl, -⟩ := hsame
    exact ⟨hself, htree⟩
  · rw [if_neg hsame]
    obtain ⟨⟨w, path⟩, hw⟩ := Option.isSome_iff_exists.mp hsome
    rcases Memo.known?_store hstore hw with hold | ⟨rfl, -, hagree, -⟩
    · obtain ⟨hself, hleads⟩ := hL m l (Option.isSome_iff_exists.mpr ⟨_, hold⟩)
      refine ⟨hself, fun x hx => ?_⟩
      rw [Leads, hreaders]
      exact hleads x hx
    · refine absurd ⟨rfl, List.all_eq_true.mpr fun d hd => ?_⟩ hsame
      have hfound := Memo.known?_agree hw fun d hd => Likeness.equality_symm (hagree d hd)
      cases hway.symm.trans hfound
      exact Likeness.equality_rel.mp (hagree d hd)

end Sound

end Ledger

/-! ## The law of ledgers -/

/-- A sound ledger is sound again after it has been kept for a while, and all names in the trees
lead to the name under evaluation. -/
def Law.ledger (p : Program) : Law where
  holds _ s cs s' := ∀ L : Ledger, L.Sound s → (Call.settleAll p cs L).2.Sound s' ∧
    ∀ q, s.reader = some q → ∀ m ∈ (Call.settleAll p cs L).1, s'.Leads m q
  idle hidle L hL :=
    ⟨hL.mono (by rw [hidle.memo]) hidle.grows.readers, fun _ _ m hm => nomatch hm⟩
  append hgrows hgrows' h h' L hL := by
    obtain ⟨hL₁, hleads₁⟩ := h L hL
    obtain ⟨hL₂, hleads₂⟩ := h' _ hL₁
    rw [Call.settleAll_append]
    refine ⟨hL₂, fun q hq m hm => ?_⟩
    rcases List.mem_append.mp hm with hm | hm
    · exact hgrows'.leads (hleads₁ q hq m hm)
    · exact hleads₂ q (hgrows.reader.trans hq) m hm
  beneath _ _ h L hL := by
    obtain ⟨hL', hleads⟩ := h L hL
    refine ⟨hL'.mono (by rw [endingBody_memo]) fun m n hmn => ?_, fun q hq m hm => ?_⟩
    · rwa [endingBody_readers]
    · rw [Leads, endingBody_readers]
      exact hleads q hq m hm

namespace Program

variable {p : Program} {n : String} {k : Context} {s : Machine} {room : Nat}

/-- A name that is answered without evaluating its equations, and the tree of its answer, which
goes on only through a value that was found. -/
theorem Answers.settles {course : Course} {r : Except Fault Value} {s' : Machine} {L : Ledger}
    (h : p.Answers n k s room course r s') (hL : L.Sound s) :
    L.Sound s' ∧ ∀ q, s.reader = some q →
      ∀ m ∈ (Visit.mk n k room s course r s').tree [] L, s'.Leads m q := by
  have hasked : ∀ m n, AskedBy s.readers m n → AskedBy s'.readers m n := by
    rw [h.readers]
    exact (s.grows_asking n).readers
  refine ⟨hL.mono (by rw [h.memo]) hasked, fun q hq m hm => ?_⟩
  have hself : s'.Leads n q := by
    rw [Leads, h.readers]
    exact leads_asking hq n
  rcases List.mem_cons.mp hm with rfl | hm
  · exact hself
  · cases h with
    | remembered _ _ _ hv =>
      obtain ⟨-, hleads⟩ := hL n k (Option.isSome_iff_exists.mpr ⟨_, hv⟩)
      exact (Relation.ReflTransGen.mono hasked _ _ (hleads m hm)).trans hself
    | _ => cases hm

theorem ledger_kept (p : Program) (room : Nat) : (Law.ledger p).Obeyed p room := by
  refine Law.call (fun {n k s room c} hgoes _ L hL => ?_) room
  rw [Call.settleAll_singleton]
  cases hgoes with
  | answered hanswers =>
    obtain ⟨hsound, hleads⟩ := hanswers.settles hL
    have hnone : p.stored? ⟨n, k, room, s, _, _, _⟩ = none := hanswers.stored?
    rw [Call.settle, hnone]
    exact ⟨hsound, hleads⟩
  | @evaluated room _ r b cs f fs ran _ _ _ _ hgrows _ hinner hconcludes _ =>
    have hbegin : L.Sound (s.beginning n k) := by
      refine hL.mono ?_ (s.grows_asking n).readers
      rw [beginning_memo]
      rfl
    obtain ⟨hbelow, hleads⟩ := hinner L hbegin
    have hreaders : ran.2.readers = b.readers := hconcludes.settled.2.1
    have htree : ∀ m ∈ (Visit.mk n k (room + 1) s (.evaluated f) ran.1 ran.2).tree
        (Call.settleAll p cs L).1 (Call.settleAll p cs L).2, ran.2.Leads m n := by
      intro m hm
      rcases List.mem_cons.mp hm with rfl | hm
      · exact .refl
      · rw [List.append_nil] at hm
        rw [Leads, hreaders]
        exact hleads n (s.beginning_reader n k) m hm
    rw [Call.settle]
    constructor
    · have hleft : (Call.settleAll p cs L).2.Sound (b.leaving n k s.depth fs) :=
        hbelow.mono rfl fun _ _ => id
      rcases hconcludes.stored_cases (room + 1) s with ⟨hnone, hmemo⟩ | ⟨v, -, hsome, hmemo⟩
      · rw [hnone]
        exact hleft.mono (congrArg Memo.tries hmemo) fun m l hml => hreaders.symm ▸ hml
      · rw [hsome]
        exact hleft.stored hmemo hreaders (List.mem_cons_self ..) htree
    · intro q hq m hm
      have hself : (s.beginning n k).Leads n q := leads_asking hq n
      have hend : ran.2.Leads n q := by
        rw [Leads, hreaders]
        exact hgrows.leads hself
      exact (htree m hm).trans hend

end Program

end Intensional

import Intensional.Proofs.Evaluation.Nesting

/-!
# The books of an evaluation

That a name is being evaluated is written down three times: there is a frame that it owns, its
evaluation is pending in the memo, and the depth counts it. A machine is orderly if the three agree
and the depth is within the limit (`Machine.Orderly`).

Steps that let the machine grow leave the books as they are, and where the equations of a name
begin to be evaluated, one entry is made in each. So by the law of calls every evaluation begins
in an orderly machine, and however it ends, the books are what they were (`Task.keeps_books`).
-/

namespace Intensional

namespace Machine

variable {p : Program} {room : Nat} {s s' : Machine} {n : String} {k : Context}

/-- The evaluations that have a frame, the innermost first. -/
def owners (s : Machine) : List (String × Context) := s.frames.filterMap Frame.owner

/-- The frames, the pending evaluations and the depth agree, and there is so much room left up to
the limit. -/
structure Orderly (p : Program) (room : Nat) (s : Machine) : Prop where
  distinct : s.owners.Pairwise fun o o' => (o == o') = false
  pending (n : String) (k : Context) : s.memo.isPending n k = s.owners.any (· == (n, k))
  depth : s.depth = s.owners.length
  limit : s.depth + room = p.config.maxDepth

/-- The books are the same: the same frames in the same order, the same evaluations pending, and
the same depth. -/
structure SameBooks (s s' : Machine) : Prop where
  owners : s'.frames.map Frame.owner = s.frames.map Frame.owner
  pending (n : String) (k : Context) : s'.memo.isPending n k = s.memo.isPending n k
  depth : s'.depth = s.depth

theorem Grows.sameBooks (h : s.Grows s') : s.SameBooks s' := by
  have all : ∀ {fs gs : List Frame}, List.Forall₂ Frame.Grows fs gs →
      gs.map Frame.owner = fs.map Frame.owner := by
    intro fs gs h
    induction h with
    | nil => rfl
    | cons hfg _ ih => rw [List.map_cons, List.map_cons, hfg.owner, ih]
  exact ⟨all h.frames, h.pending, h.depth⟩

theorem SameBooks.owners_eq (h : s.SameBooks s') : s'.owners = s.owners := by
  have filterMap_owner : ∀ fs : List Frame,
      fs.filterMap Frame.owner = (fs.map Frame.owner).filterMap id := fun fs => by
    rw [List.filterMap_map, Function.id_comp]
  rw [Machine.owners, Machine.owners, filterMap_owner, h.owners, ← filterMap_owner]

namespace Orderly

theorem of_sameBooks (hs : s.Orderly p room) (h : s.SameBooks s') : s'.Orderly p room := by
  have howners := h.owners_eq
  refine ⟨howners ▸ hs.distinct, fun n k => ?_, ?_, ?_⟩
  · rw [h.pending, hs.pending, howners]
  · rw [h.depth, hs.depth, howners]
  · rw [h.depth, hs.limit]

/-- A machine at depth zero, without frames and without pending evaluations, has all the room that
there is. -/
theorem of_resting (hdepth : s.depth = 0) (hframes : s.frames = [])
    (hquiet : ∀ n k, s.memo.isPending n k = false) : s.Orderly p p.config.maxDepth := by
  have howners : s.owners = [] := by rw [owners, hframes, List.filterMap_nil]
  refine ⟨?_, fun n k => ?_, ?_, ?_⟩
  · rw [howners]
    exact .nil
  · rw [hquiet, howners, List.any_nil]
  · rw [hdepth, howners, List.length_nil]
  · rw [hdepth, Nat.zero_add]

/-- The room that is left is what the depth leaves. -/
theorem room_eq (hs : s.Orderly p room) : p.room s = room := by
  rw [Program.room, ← hs.limit, Nat.add_sub_cancel_left]

/-- The frame of a body under changed bindings has no owner. -/
theorem push (hs : s.Orderly p room) : (s.push (.new none)).Orderly p room :=
  ⟨hs.distinct, hs.pending, hs.depth, hs.limit⟩

/-- The evaluation of a name that is not pending is a new entry. -/
theorem enter (hs : s.Orderly p (room + 1)) (hpending : s.memo.isPending n k = false) :
    (s.enter n k).Orderly p room := by
  have howners : (s.enter n k).owners = (n, k) :: s.owners := rfl
  have hdepth : (s.enter n k).depth = s.depth + 1 := rfl
  refine ⟨?_, fun m l => ?_, ?_, ?_⟩
  · rw [howners]
    refine List.pairwise_cons.mpr ⟨fun o ho => ?_, hs.distinct⟩
    rw [hs.pending, List.any_eq_false] at hpending
    exact Bool.eq_false_iff.mpr fun h => hpending o ho (BEq.symm h)
  · rw [isPending_enter, hs.pending, howners, List.any_cons]
  · rw [hdepth, hs.depth, howners, List.length_cons]
  · have hlimit := hs.limit
    omega

theorem beginning (hs : s.Orderly p (room + 1)) (hpending : s.memo.isPending n k = false) :
    (s.beginning n k).Orderly p room := by
  have hmiss : s.Grows (s.asking n).countMiss :=
    (s.grows_asking n).trans (.of_stats (Nat.le_refl _))
  exact (hs.of_sameBooks hmiss.sameBooks).enter ((hmiss.pending n k).trans hpending)

/-- An evaluation is pending if one of the frames belongs to it. -/
theorem isPending_eq (hs : s.Orderly p room) (n : String) (k : Context) :
    s.memo.isPending n k = s.frames.any fun f => f.belongsTo n k := by
  have any_owner : ∀ fs : List Frame, (fs.filterMap Frame.owner).any (· == (n, k)) =
      fs.any fun f => f.belongsTo n k := by
    intro fs
    induction fs with
    | nil => rfl
    | cons f fs ih =>
      rw [List.any_cons, ← ih, Frame.belongsTo]
      cases hf : f.owner with
      | none => rw [List.filterMap_cons_none hf]; rfl
      | some o => rw [List.filterMap_cons_some hf]; rfl
  rw [hs.pending, owners, any_owner]

end Orderly

end Machine

/-! ## The law of the books -/

/-- From an orderly machine, every evaluation begins orderly and ends with the same books. -/
def Law.books (p : Program) : Law where
  holds room s cs _ := s.Orderly p room → ∀ v ∈ Call.visitsAll cs,
    v.before.Orderly p v.room ∧ v.before.SameBooks v.after
  idle _ _ _ hv := nomatch hv
  append hgrows _ h h' hs v hv := by
    rw [Call.visitsAll_append, List.mem_append] at hv
    exact hv.elim (h hs v) (h' (hs.of_sameBooks hgrows.sameBooks) v)
  beneath _ _ h hs := h hs.push

theorem Program.books_kept (p : Program) (room : Nat) : (Law.books p).Obeyed p room := by
  refine Law.call (fun {n k s room c} hgoes hgrows hs v hv => ?_) room
  rw [Call.visitsAll_singleton] at hv
  cases hgoes with
  | answered _ =>
    obtain rfl := List.mem_singleton.mp hv
    exact ⟨hs, hgrows.sameBooks⟩
  | evaluated _ hpending _ _ _ _ hinner _ _ =>
    rcases List.mem_append.mp hv with hv | hv
    · exact hinner (hs.beginning hpending) v hv
    · obtain rfl := List.mem_singleton.mp hv
      exact ⟨hs, hgrows.sameBooks⟩

/-- An evaluation that begins in an orderly machine leaves the books as they were, whatever its
answer, and the same is true of every evaluation of a name that it is made of. -/
theorem Task.keeps_books (p : Program) (room : Nat) (task : Task) {s s' : Machine}
    {r : Except Fault Value} {calls : List Call} (hs : s.Orderly p room)
    (hrun : task.record p room s = ((r, s'), calls)) :
    task.run p s = (r, s') ∧ s.SameBooks s' ∧ s'.Orderly p room ∧
      ∀ v ∈ Call.visitsAll calls, v.before.Orderly p v.room ∧ v.before.SameBooks v.after := by
  have heval : task.eval p room s = (r, s') := by
    rw [← task.record_run, Recorded.run, hrun]
  have hbooks := (task.grows p room s).sameBooks
  have hcalls := (p.books_kept room).holds task s hs
  rw [heval] at hbooks
  rw [hrun] at hcalls
  refine ⟨?_, hbooks, hs.of_sameBooks hbooks, hcalls⟩
  rw [task.run_eq, hs.room_eq, heval]

/-- The names `f` and `g` are each other. -/
def Program.mirror (maxDepth : Nat) : Program :=
  let same (n m : String) (id : Nat) : Group :=
    (Group.empty n).install ⟨id⟩ (.always (.ident m)) 0
  ((Program.empty ⟨maxDepth, true⟩).setGroup (same "f" "g" 1)).setGroup (same "g" "f" 2)

/-- While `h` is being evaluated and one more may be nested, `f` cannot ask for `g`; and the books
are as before. -/
theorem Task.keeps_books_refused :
    let s := Machine.initial.enter "h" .empty
    let task := Task.name "f" .empty
    let p := Program.mirror 2
    s.Orderly p 1 ∧ s.depth = 1 ∧ (task.run p s).1 = .error (.tooDeep "g" 2) ∧
      s.SameBooks (task.run p s).2 ∧ (task.run p s).2.Orderly p 1 := by
  have hinitial : Machine.initial.Orderly (Program.mirror 2) 2 :=
    .of_resting rfl rfl fun _ _ => rfl
  have hs : (Machine.initial.enter "h" .empty).Orderly (Program.mirror 2) 1 := hinitial.enter rfl
  obtain ⟨hrun, hbooks, horderly, -⟩ := keeps_books (Program.mirror 2) 1 (.name "f" .empty) hs
    (r := .error (.tooDeep "g" 2)) (Prod.ext (Prod.ext rfl rfl) rfl)
  exact ⟨hs, rfl, congrArg Prod.fst hrun, hbooks, horderly⟩

end Intensional

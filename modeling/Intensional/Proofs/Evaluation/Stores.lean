import Intensional.Proofs.Evaluation.Calls

/-!
# What an evaluation stores

Of all calls it is those that store a value whose equations have been evaluated with a value, in a
frame that is not provisional (`Program.stored?`). What is remembered after an evaluation is what
was remembered before and what its calls have stored, in order (`Program.stores_replayed`).

Nothing that is remembered gets lost by it: a value is stored only where none was found when the
evaluation of the name began, so it goes another way than all that were there before
(`Program.remembering_kept`).
-/

namespace Intensional

open Machine

/-! ## What was stored -/

/-- A value that is remembered for a name, for the contexts that agree on some dimensions. -/
structure Store where
  name : String
  context : Context
  dims : IndexSet
  value : Value

def Store.into (m : Memo) (t : Store) : Except Fault Memo :=
  m.store t.name t.context t.dims t.value

/-- What the evaluation of a name itself has stored. -/
def Program.stored? (p : Program) (v : Visit) : Option Store :=
  match v.course, v.answer with
  | .evaluated f, .ok w =>
    if p.config.caching && !f.provisional then some ⟨v.name, v.context, f.reads, w⟩ else none
  | _, _ => none

/-- What the calls have stored, in order. -/
def Program.stores (p : Program) (cs : List Call) : List Store :=
  (Call.visitsAll cs).filterMap p.stored?

theorem Program.stores_append (p : Program) (cs ds : List Call) :
    p.stores (cs ++ ds) = p.stores cs ++ p.stores ds := by
  rw [stores, Call.visitsAll_append, List.filterMap_append]
  rfl

theorem Program.stores_mk (p : Program) (v : Visit) (inner : List Call) :
    p.stores [.mk v inner] = p.stores inner ++ (p.stored? v).toList := by
  rw [stores, Call.visitsAll_singleton, Call.visits, List.filterMap_append]
  cases h : p.stored? v <;> simp [h, stores]

/-- A name that is answered without evaluating its equations stores nothing. -/
theorem Program.Answers.stored? {p : Program} {n : String} {k : Context} {s s' : Machine}
    {room : Nat} {course : Course} {r : Except Fault Value}
    (h : p.Answers n k s room course r s') : p.stored? ⟨n, k, room, s, course, r, s'⟩ = none := by
  cases h <;> rfl

/-- What a name stores when it has been evaluated. -/
theorem Program.Concludes.stored_cases {p : Program} {n : String} {k : Context} {depth : Nat}
    {b : Machine} {f : Frame} {fs : List Frame} {r : Except Fault Value}
    {ran : Except Fault Value × Machine} (h : Concludes p n k depth b f fs r ran) (room : Nat)
    (s : Machine) :
    (p.stored? ⟨n, k, room, s, .evaluated f, ran.1, ran.2⟩ = none ∧
      ran.2.memo = b.memo.finish n k) ∨
    ∃ v, p.config.caching = true ∧
      p.stored? ⟨n, k, room, s, .evaluated f, ran.1, ran.2⟩ = some ⟨n, k, f.reads, v⟩ ∧
      (b.memo.finish n k).store n k f.reads v = .ok ran.2.memo := by
  cases h with
  | failed e => exact .inl ⟨rfl, rfl⟩
  | passed v hprovisional =>
    have hnothing : (p.config.caching && !f.provisional) = false := by
      cases hcaching : p.config.caching with
      | false => rfl
      | true => rw [hprovisional hcaching]; rfl
    refine .inl ⟨?_, noteReads_memo _ _⟩
    simp only [stored?, hnothing, Bool.false_eq_true, ↓reduceIte]
  | refused v e _ _ => exact .inl ⟨rfl, rfl⟩
  | stored v memo hcaching hprovisional hmemo =>
    refine .inr ⟨v, hcaching, ?_, ?_⟩
    · simp only [stored?, hcaching, hprovisional, Bool.not_false, Bool.and_self, ↓reduceIte]
    · rw [noteReads_memo]
      exact hmemo

/-! ## The law of stores -/

/-- The remembered values change by what the calls store, and by nothing else. -/
def Law.stores (p : Program) : Law where
  holds _ s cs s' := ∀ m : Memo, m.tries = s.memo.tries →
    ∃ m', (p.stores cs).foldlM Store.into m = .ok m' ∧ m'.tries = s'.memo.tries
  idle hidle m hm := ⟨m, rfl, by rw [hm, hidle.memo]⟩
  append _ _ h h' m hm := by
    obtain ⟨m₁, hfirst, hm₁⟩ := h m hm
    obtain ⟨m₂, hsecond, hm₂⟩ := h' m₁ hm₁
    refine ⟨m₂, ?_, hm₂⟩
    rw [Program.stores_append, List.foldlM_append, hfirst]
    exact hsecond
  beneath _ _ h m hm := by
    rw [endingBody_memo]
    exact h m hm

theorem Program.stores_replayed (p : Program) (room : Nat) : (Law.stores p).Obeyed p room := by
  refine Law.call (fun {n k s room c} hgoes _ m hm => ?_) room
  cases hgoes with
  | answered hanswers =>
    have hnone : p.stored? ⟨n, k, room, s, _, _, _⟩ = none := hanswers.stored?
    rw [stores_mk, hnone]
    exact ⟨m, rfl, by rw [hm, ← hanswers.memo]; rfl⟩
  | @evaluated _ _ _ b _ f fs _ _ _ _ _ _ _ hinner hconcludes _ =>
    obtain ⟨m₁, hm₁, htries⟩ := hinner m (by rw [beginning_memo]; exact hm)
    have htries : m₁.tries = (b.memo.finish n k).tries := htries
    rw [stores_mk, List.foldlM_append, hm₁]
    rcases hconcludes.stored_cases _ s with ⟨hnone, hmemo⟩ | ⟨v, -, hsome, hmemo⟩
    · rw [hnone]
      exact ⟨m₁, rfl, htries.trans (congrArg Memo.tries hmemo).symm⟩
    · rw [hsome]
      obtain ⟨m', hm', hend⟩ := Memo.store_congr htries hmemo
      refine ⟨m', ?_, hend⟩
      show (m₁.store n k f.reads v >>= fun m => pure m) = .ok m'
      rw [hm']
      rfl

/-! ## The law of remembering -/

/-- What is remembered stays remembered, and is found on the same way. -/
def Law.remembering : Law where
  holds _ s _ s' := ∀ n k v path, s.memo.known? n k = some (v, path) →
    s'.memo.known? n k = some (v, path)
  idle hidle n k v path hv := by rwa [hidle.memo]
  append _ _ h h' n k v path hv := h' n k v path (h n k v path hv)
  beneath _ _ h n k v path hv := by
    rw [endingBody_memo]
    exact h n k v path hv

theorem Program.remembering_kept (p : Program) (room : Nat) : Law.remembering.Obeyed p room := by
  refine Law.call (fun {n k s room c} hgoes _ m l w path hw => ?_) room
  cases hgoes with
  | answered hanswers => exact hanswers.memo.symm ▸ hw
  | @evaluated _ _ _ b _ f fs _ _ _ hmiss _ _ _ hinner hconcludes _ =>
    have hb : (b.memo.finish n k).known? m l = some (w, path) :=
      hinner m l w path (by rw [beginning_memo]; exact hw)
    rcases hconcludes.stored_cases 0 s with ⟨-, hmemo⟩ | ⟨v, hcaching, -, hmemo⟩
    · exact hmemo.symm ▸ hb
    · refine Memo.known?_store_other hmemo hb fun hnm hagree => ?_
      subst hnm
      have hfound := Memo.known?_agree hw fun d hd => Likeness.equality_symm (hagree d hd)
      cases (hmiss hcaching).symm.trans hfound

end Intensional

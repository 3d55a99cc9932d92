import Intensional.Engine.Library
import Intensional.Proofs.Engine.Clearing
import Intensional.Proofs.Evaluation.Applications

/-!
# Operators that come late

Operators can be registered at any time, by whoever has the engine or by a library that is
loaded. Unlike an edit of an equation this forgets nothing, so a value that was computed with the
operators from before is remembered, and answered (`Engine.registering_leaves_stale_answer`).

It does not show where a registration is harmless: where the new operation answers as the old
table did, or no equation that a remembered value may have come from applies the operator to so
many operands. Then every remembered value means what it meant, and an engine that has met no
cycle answers what it would answer after forgetting everything
(`Engine.registering_keeps_answer`).
-/

namespace Intensional

open Machine

/-! ## What is done to an engine -/

/-- An operation for an operator and operands of some types. -/
structure Registration where
  name : String
  types : List TypeIndex
  op : Operator

inductive Act where
  | request (r : Request)
  | register (r : Registration)
  /-- All that is remembered is dropped. -/
  | clear

/-- Something is done, or a library is loaded that does some things. -/
inductive Event where
  | act (a : Act)
  | load (library : String) (acts : List Act)

def Request.run : Request → Action Engine Unit
  | .edit e => (fun _ => ()) <$> e.run
  | .compile e => (fun _ => ()) <$> Engine.compile e
  | .evaluate name k => (fun _ => ()) <$> Engine.evaluate name k

def Act.run : Act → Action Engine Unit
  | .request r => r.run
  | .register r => Engine.addOperator r.name r.types r.op
  | .clear => .update Engine.forgetAll

/-- A library that does some things, up to the first fault. -/
def Library.ofActs (name : String) (acts : List Act) : Library :=
  ⟨name, (fun _ => ()) <$> Action.each Act.run acts⟩

def Event.run : Event → Action Engine Unit
  | .act a => a.run
  | .load library acts => Engine.load (.ofActs library acts)

namespace Engine

variable {s t u : Engine} {ops : OperatorTable}

/-- The engine after some events; faults are passed over. -/
def after (s : Engine) : List Event → Engine
  | [] => s
  | e :: es => (e.run s).2.after es

/-- The acts that are done up to the first fault, each with the engine that it is done to. -/
def done (s : Engine) : List Act → List (Engine × Act)
  | [] => []
  | a :: as =>
    (s, a) ::
      match a.run s with
      | (.ok _, s') => s'.done as
      | (.error _, _) => []

/-- All acts that are done in the course of some events. -/
def history (s : Engine) : List Event → List (Engine × Act)
  | [] => []
  | .act a :: es => (s, a) :: (a.run s).2.history es
  | .load library acts :: es =>
    s.done acts ++ ((Event.load library acts).run s).2.history es

/-! ## What acts keep -/

theorem load_state (library : Library) (s : Engine) :
    (load library s).2 = (library.install s).2 := by
  unfold load Action.mapFault
  rcases library.install s with ⟨_ | _, _⟩ <;> rfl

theorem each_keeps {I : Engine → Prop} {acts : List Act}
    (hact : ∀ t a, (t, a) ∈ s.done acts → I t → I (a.run t).2) (hs : I s) :
    I (Action.each Act.run acts s).2 := by
  induction acts generalizing s with
  | nil => exact hs
  | cons a as ih =>
    have hfirst := hact s a (List.mem_cons_self ..) hs
    rw [Action.each]
    rcases ha : a.run s with ⟨e | v, s'⟩
    · rw [Action.bind_of_error ha]
      rwa [ha] at hfirst
    · rw [ha] at hfirst
      have hrest := ih (s := s') (fun t b hb => hact t b (List.mem_cons_of_mem _ (by rwa [ha])))
        hfirst
      rw [Action.bind_of_ok ha]
      rcases has : Action.each Act.run as s' with ⟨e | vs, s''⟩ <;> rw [has] at hrest
      · rwa [Action.bind_of_error has]
      · rwa [Action.bind_of_ok has]

/-- What every act of the history keeps is kept by the events. -/
theorem after_keeps {I : Engine → Prop} {events : List Event}
    (hact : ∀ t a, (t, a) ∈ s.history events → I t → I (a.run t).2) (hs : I s) :
    I (s.after events) := by
  induction events generalizing s with
  | nil => exact hs
  | cons e es ih =>
    cases e with
    | act a =>
      exact ih (fun t b hb => hact t b (List.mem_cons_of_mem _ hb))
        (hact s a (List.mem_cons_self ..) hs)
    | load library acts =>
      have hstate : ((Event.load library acts).run s).2 = (Action.each Act.run acts s).2 :=
        (load_state _ s).trans (congrArg Prod.snd (Action.map_apply ..))
      refine ih (fun t b hb => hact t b (List.mem_append_right _ hb)) ?_
      rw [hstate]
      exact each_keeps (fun t b hb => hact t b (List.mem_append_left _ hb)) hs

/-! ## Harmless registrations -/

/-- An equation that a remembered value may have come from applies the operator to operands of
that number. -/
def Draws (s : Engine) (op : String) (arity : Nat) : Prop :=
  ∃ n k m g, (s.machine.memo.known? n k).isSome = true ∧ s.machine.Leads m n ∧
    s.program.group? m = some g ∧ ∃ q ∈ g.equations, q.definition.applies op arity = true

/-- If a remembered value may have come from the operator, the operation answers what the engine
has answered so far. -/
def Harmless (s : Engine) (r : Registration) : Prop :=
  s.Draws r.name r.types.length → ∀ vs : List Value, vs.map (·.typeIndex) = r.types →
    s.program.vocabulary.operators.apply r.name vs = r.op vs

theorem Grounded.register (hs : s.Grounded) {r : Registration}
    (hrespects : OperatorTable.Respects r.types r.op) (hharmless : s.Harmless r) :
    (addOperator r.name r.types r.op s).2.Grounded := by
  have hground : s.machine.Grounded (addOperator r.name r.types r.op s).2.program := by
    refine hs.grounded.reoperate rfl (fun _ => rfl) fun n k m g hknown hleads hg q hq => ?_
    intro op arity happlies vs hlength
    show _ = (s.program.vocabulary.operators.register r.name r.types r.op).apply op vs
    rw [OperatorTable.apply_register]
    split
    · rename_i hsame
      obtain ⟨rfl, htypes⟩ := hsame
      have harity : r.types.length = arity := by rw [htypes, List.length_map, hlength]
      exact hharmless ⟨n, k, m, g, hknown, hleads, hg, q, hq, harity ▸ happlies⟩ vs htypes.symm
    · rfl
  exact ⟨⟨hs.operators.register r.name hrespects, hs.named, hs.resting, hs.depth,
    hs.quiet, hground.consistent⟩, hground⟩

/-! ## Evaluations without cycles -/

/-- The engine without caching, with a limit of its own. -/
def uncached (s : Engine) (maxDepth : Nat) : Engine :=
  { s with program := { s.program with config := ⟨maxDepth, false⟩ } }

/-- The evaluation of the name meets no cycle, or it meets none without caching, where it comes to
a value within some limit. -/
def Acyclic (s : Engine) (name : String) (k : Context) : Prop :=
  (evaluate name k s).2.machine.stats.loops = s.machine.stats.loops ∨
    ∃ maxDepth v t, evaluate name k (s.uncached maxDepth) = (.ok v, t) ∧
      t.machine.stats.loops = s.machine.stats.loops

theorem Acyclic.loops {name : String} {k : Context} (h : s.Acyclic name k) (hs : s.Sound)
    (hcaching : s.program.config.caching = true) :
    (evaluate name k s).2.machine.stats.loops = s.machine.stats.loops := by
  rcases h with hloops | ⟨maxDepth, v, t, hv, hloops⟩
  · exact hloops
  · have hgroup : (s.uncached maxDepth).program.group? name = s.program.group? name := rfl
    rcases evaluate_both hgroup k k with ⟨heval, -⟩ | ⟨heval, heval'⟩
    · rw [heval]
    · rw [heval'] at hv
      obtain ⟨hres, rfl⟩ := Prod.mk.inj hv
      have hground : s.machine.Grounded (s.uncached maxDepth).program :=
        Program.grounded_of_uncached rfl _
      rw [heval]
      exact (Program.demand_agrees_quietly (p := (s.uncached maxDepth).program) hs.operators hground
        (Prod.ext hres rfl) hloops hcaching hs.consistent hs.quiet (.refl _)
        (s.program.room s.machine) rfl).1

/-! ## Answers after registrations -/

/-- The engine has met no cycle, and it remembers values. -/
structure Primed (s : Engine) : Prop extends s.Grounded where
  caching : s.program.config.caching = true

theorem Primed.act (hs : s.Primed) {a : Act}
    (hevaluate : ∀ n k, a = .request (.evaluate n k) → s.Acyclic n k)
    (hregister : ∀ r, a = .register r → OperatorTable.Respects r.types r.op ∧ s.Harmless r) :
    (a.run s).2.Primed := by
  cases a with
  | request r =>
    have hrun : ((Act.request r).run s).2 = (s.handle r).2 := by
      cases r <;> exact congrArg Prod.snd (Action.map_apply ..)
    have hadvances := hs.toSound.handle r
    rw [hrun]
    refine ⟨?_, hadvances.config ▸ hs.caching⟩
    rcases handle_cases hs.named r with ⟨n, k, rfl⟩ | hchanges
    · exact (hs.evaluate n k ((hevaluate n k rfl).loops hs.toSound hs.caching)).1
    · exact hchanges.keeps Change.grounded hs.toGrounded
  | register r =>
    obtain ⟨hrespects, hharmless⟩ := hregister r rfl
    exact ⟨hs.toGrounded.register hrespects hharmless, hs.caching⟩
  | clear =>
    obtain ⟨hsound, hground⟩ := hs.toSound.forgetAll
    exact ⟨⟨hsound, hground⟩, hs.caching⟩

/-- What an engine answers after registrations that are harmless where they are made is equal to
what it answers after forgetting everything, if neither it nor any evaluation before meets a
cycle. -/
theorem registering_keeps_answer (maxDepth : Nat) (hops : ops.Congruent) (events : List Event)
    (hreach : (start ⟨maxDepth, true⟩ ops).after events = s)
    (hrespects : ∀ t r, (t, .register r) ∈ (start ⟨maxDepth, true⟩ ops).history events →
      OperatorTable.Respects r.types r.op)
    (hharmless : ∀ t r, (t, .register r) ∈ (start ⟨maxDepth, true⟩ ops).history events →
      t.Harmless r)
    (hacyclic : ∀ t n l, (t, .request (.evaluate n l)) ∈
      (start ⟨maxDepth, true⟩ ops).history events → t.Acyclic n l)
    (name : String) (k : Context) (hlast : s.Acyclic name k) {v w : Value}
    (hv : (evaluate name k s).1 = .ok v) (hw : (evaluate name k s.forgetAll).1 = .ok w) :
    (v == w) = true := by
  have hs : s.Primed := by
    rw [← hreach]
    refine after_keeps (fun t a ha ht => ht.act ?_ ?_) ⟨grounded_start _ hops, rfl⟩
    · rintro n l rfl
      exact hacyclic t n l ha
    · rintro r rfl
      exact ⟨hrespects t r ha, hharmless t r ha⟩
  have hloops := hlast.loops hs.toSound hs.caching
  obtain ⟨hcleared, -⟩ := hs.toSound.forgetAll
  have hgroup : s.forgetAll.program.group? name = s.program.group? name := rfl
  rcases evaluate_both hgroup k k with ⟨heval, heval'⟩ | ⟨heval, heval'⟩
  · rw [heval] at hv
    rw [heval'] at hw
    cases hv
    cases hw
    exact BEq.rfl
  · rw [heval] at hv hloops
    rw [heval'] at hw
    rcases Program.demand_agrees hs.operators hs.grounded (Prod.ext hv rfl) hloops hs.caching
      hcleared.consistent hcleared.quiet (.refl _) (s.program.room s.forgetAll.machine) rfl with
      ⟨w', hw', hvw, -⟩ | ⟨e, he, -⟩
    · cases hw.symm.trans hw'
      exact hvw
    · cases hw.symm.trans he

/-- The operator `answer` without operands. -/
def answer : Registration := ⟨"answer", [], fun _ => .int 42⟩

/-- The name `f` is the answer, and it is evaluated. -/
def askAnswer : List Event :=
  [.act (.request (.edit (.define "f" ⟨1⟩ .always (.apply "answer" []) 0))),
    .act (.request (.evaluate "f" .empty))]

/-- The answer is known before it is asked for, and a library brings another operator. -/
theorem registering_keeps_answer_known :
    let other : Registration := ⟨"other", [TypeIndex.int], fun _ => .int 7⟩
    let events : List Event := .act (.register answer) :: askAnswer ++ [.load "others"
      [.register other]]
    let s := (start ⟨10, true⟩ []).after events
    (∀ t r, (t, .register r) ∈ (start ⟨10, true⟩ []).history events → t.Harmless r) ∧
      (evaluate "f" .empty s).1 = .ok (.int 42) ∧
      (evaluate "f" .empty s.forgetAll).1 = .ok (.int 42) ∧
      ((.int 42 : Value) == .int 42) = true := by
  intro other events s
  let stage (n : Nat) : Engine := (start ⟨10, true⟩ []).after (events.take n)
  have hhistory : (start ⟨10, true⟩ []).history events =
      [(stage 0, .register answer),
        (stage 1, .request (.edit (.define "f" ⟨1⟩ .always (.apply "answer" []) 0))),
        (stage 2, .request (.evaluate "f" .empty)), (stage 3, .register other)] := rfl
  have hregistered : ∀ t r, (t, .register r) ∈ (start ⟨10, true⟩ []).history events →
      t = stage 0 ∧ r = answer ∨ t = stage 3 ∧ r = other := by
    intro t r h
    rw [hhistory] at h
    simpa using h
  have hharmless : ∀ t r, (t, .register r) ∈ (start ⟨10, true⟩ []).history events →
      t.Harmless r := by
    intro t r h
    rcases hregistered t r h with ⟨rfl, rfl⟩ | ⟨rfl, rfl⟩
    · rintro ⟨n, k, m, g, hknown, -⟩
      cases hknown
    · rintro ⟨n, k, m, g, -, -, hg, q, hq, happlies⟩
      have hg : (if "f" == m then some ((stage 3).program.groupOf "f") else none) = some g := hg
      split at hg <;> cases hg
      obtain rfl := List.mem_singleton.mp hq
      cases happlies
  refine ⟨hharmless, rfl, rfl, registering_keeps_answer 10 OperatorTable.congruent_empty events
    rfl ?_ hharmless ?_ "f" .empty (.inl rfl) rfl rfl⟩
  · intro t r h vs ws _ _
    rcases hregistered t r h with ⟨-, rfl⟩ | ⟨-, rfl⟩ <;> rfl
  · intro t n l h
    rw [hhistory] at h
    obtain ⟨rfl, rfl, rfl⟩ : t = stage 2 ∧ n = "f" ∧ l = .empty := by simpa using h
    exact .inl rfl

/-- The answer is asked for before it is known. Whether it is registered then or brought by a
library, it stays unknown until everything is forgotten. -/
theorem registering_leaves_stale_answer :
    OperatorTable.Respects answer.types answer.op ∧
      ∀ e ∈ [Event.act (.register answer), .load "answers" [.register answer]],
        let s := (start ⟨10, true⟩ []).after (askAnswer ++ [e])
        s.machine.stats.loops = 0 ∧
          (∃ t, evaluate "f" .empty (s.uncached 10) = (.ok (.int 42), t) ∧
            t.machine.stats.loops = 0) ∧
          (evaluate "f" .empty s).1 = .ok (.special .typeError) ∧
          (evaluate "f" .empty s.forgetAll).1 = .ok (.int 42) ∧
          ((.special .typeError : Value) == .int 42) = false := by
  refine ⟨fun _ _ _ _ => rfl, List.forall_mem_cons.mpr ⟨?_, List.forall_mem_singleton.mpr ?_⟩⟩
  · exact ⟨rfl, ⟨_, rfl, rfl⟩, rfl, rfl, rfl⟩
  · exact ⟨rfl, ⟨_, rfl, rfl⟩, rfl, rfl, rfl⟩

end Engine

end Intensional

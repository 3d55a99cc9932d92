import Intensional.Dimension
import Intensional.Memo.Basic

/-!
# The state of an evaluation

What changes while names are evaluated: the dimensions that are interned, the values that are
remembered, which names read which, the frames of the pending evaluations, how deep evaluations
are nested, and some counts.

A frame collects the dimensions that were read since it was entered. The frame of a name has an
owner, the name and its context; the frame of a body under changed bindings has none. A frame
is provisional once a cycle has been met that leads to a frame further out: its value then
depends on where the evaluation began, and is not to be remembered.
-/

namespace Intensional

/-- The dimensions read by one pending evaluation. -/
structure Frame where
  owner : Option (String × Context)
  reads : IndexSet
  provisional : Bool

namespace Frame

def new (owner : Option (String × Context)) : Frame := ⟨owner, .empty, false⟩

instance : Inhabited Frame := ⟨new none⟩

def belongsTo (f : Frame) (name : String) (k : Context) : Bool :=
  f.owner.any fun o => o == (name, k)

/-- Mark the frames further in than the one of this name at this context. -/
def markProvisional (name : String) (k : Context) : List Frame → List Frame
  | [] => []
  | f :: fs =>
    if f.belongsTo name k then f :: fs
    else { f with provisional := true } :: markProvisional name k fs

end Frame

structure Stats where
  evaluations : Nat := 0
  hits : Nat := 0
  misses : Nat := 0
  stores : Nat := 0
  loops : Nat := 0
  invalidations : Nat := 0
deriving DecidableEq

/-- The state of an evaluation. The innermost frame comes first. -/
structure Machine where
  dims : DimTable
  memo : Memo
  /-- For each name the names whose evaluation asked for it. -/
  readers : Assoc String (List String)
  frames : List Frame
  /-- How many evaluations of names are nested. -/
  depth : Nat
  stats : Stats

namespace Machine

def initial : Machine := ⟨.initial none, .empty, [], [], 0, {}⟩

instance : Inhabited Machine := ⟨initial⟩

/-! ## Frames and reads -/

def noteReads (s : Machine) (dims : IndexSet) : Machine :=
  match s.frames with
  | [] => s
  | f :: fs => { s with frames := { f with reads := dims.union f.reads } :: fs }

def push (s : Machine) (f : Frame) : Machine := { s with frames := f :: s.frames }

def pop (s : Machine) : Frame × Machine :=
  match s.frames with
  | [] => (default, s)
  | f :: fs => (f, { s with frames := fs })

/-- The name whose evaluation is the innermost. -/
def reader (s : Machine) : Option String := s.frames.findSome? fun f => f.owner.map (·.1)

def noteReader (s : Machine) (name : String) : Machine :=
  match s.reader with
  | none => s
  | some reader =>
    if reader = name then s
    else
      { s with
        readers := s.readers.put name (((s.readers.get? name).getD []).insert reader) }

/-- Begin the evaluation of a name at a context, in a frame of its own and one deeper. -/
def enter (s : Machine) (name : String) (k : Context) : Machine :=
  { s.push (.new (some (name, k))) with memo := s.memo.start name k, depth := s.depth + 1 }

/-- End the evaluation of a name at a context that was asked for at this depth: go back to the
depth, and give up the frame. -/
def leave (s : Machine) (name : String) (k : Context) (depth : Nat) : Frame × Machine :=
  let (frame, s) := s.pop
  (frame, { s with memo := s.memo.finish name k, depth })

/-! ## Counts -/

def countEvaluation (s : Machine) : Machine :=
  { s with stats := { s.stats with evaluations := s.stats.evaluations + 1 } }

def countHit (s : Machine) : Machine :=
  { s with stats := { s.stats with hits := s.stats.hits + 1 } }

def countMiss (s : Machine) : Machine :=
  { s with stats := { s.stats with misses := s.stats.misses + 1 } }

def countStore (s : Machine) : Machine :=
  { s with stats := { s.stats with stores := s.stats.stores + 1 } }

def countLoop (s : Machine) : Machine :=
  { s with stats := { s.stats with loops := s.stats.loops + 1 } }

/-! ## Forgetting -/

/-- `seen` with the names that read one of `names`. -/
def addReaders (readers : Assoc String (List String)) (seen names : List String) : List String :=
  (names.flatMap fun n => (readers.get? n).getD []).foldl
    (fun seen n => if n ∈ seen then seen else seen ++ [n]) seen

/-- `seen` with the names that read one of them over at most `rounds` steps, if `last` are those
whose readers have not been looked for. -/
def closeReaders (readers : Assoc String (List String)) :
    Nat → List String → List String → List String
  | 0, seen, _ => seen
  | rounds + 1, seen, last =>
    let more := addReaders readers seen last
    if more.length = seen.length then seen
    else closeReaders readers rounds more (more.drop seen.length)

/-- A name and all names that read it, directly or through others. Each step leaves from another
key of `readers`, so there are no more steps than keys. -/
def allReaders (s : Machine) (name : String) : List String :=
  closeReaders s.readers s.readers.length [name] [name]

def forget (s : Machine) (name : String) : Machine :=
  let names := s.allReaders name
  { s with
    memo := names.foldl Memo.forget s.memo
    readers := names.foldl Assoc.erase s.readers
    stats :=
      { s.stats with
        invalidations := s.stats.invalidations + (names.filter s.memo.holds).length } }

end Machine
end Intensional

import CBackend.CompileError
import CBackend.Linear

/-!
Basic blocks of linear code. A block begins at a label or after a jump and ends with the first jump
or before the next label. Blocks are ranges of code positions: the code itself is left as it is, and
running into the next label is a successor, not an inserted jump.
-/

namespace CBackend

/-- A range of code positions, `start` included and `stop` not, with the label it begins with. -/
structure Span where
  label : Option Symbol
  start : Nat
  stop : Nat
  deriving DecidableEq, Repr, Inhabited

structure Block where
  span : Span
  next : Option Nat
  taken : Option Nat
  reachable : Bool
  deriving DecidableEq, Repr, Inhabited

/-- The successors of a block: the unconditional one, then the target of its branch. -/
def Block.successors (b : Block) : List Nat := b.next.toList ++ b.taken.toList

structure FlowGraph where
  blocks : Array Block
  deriving DecidableEq, Repr, Inhabited

namespace FlowGraph

/-- Cuts the codes from position `pos` on, where the current block began at `start`. -/
def cut : (pos start : Nat) → (label : Option Symbol) → List Code → List Span
  | pos, start, label, [] => if start < pos then [⟨label, start, pos⟩] else []
  | pos, start, label, .label l :: rest =>
    let later := cut (pos + 1) pos (some l) rest
    if start < pos then ⟨label, start, pos⟩ :: later else later
  | pos, start, label, code :: rest =>
    if code.isJump then ⟨label, start, pos + 1⟩ :: cut (pos + 1) (pos + 1) none rest
    else cut (pos + 1) start label rest

/-- The blocks of a code list as ranges; an empty list is one empty block. -/
def spans (codes : List Code) : List Span :=
  if codes.isEmpty then [⟨none, 0, 0⟩] else cut 0 0 none codes

/-- The block a label begins; the last one if it is placed several times. -/
def blockOf? (spans : List Span) (label : Symbol) : Option Nat :=
  spans.zipIdx.foldl (fun found (s, i) => if s.label = some label then some i else found) none

def target (spans : List Span) (label : Symbol) : Except CompileError Nat :=
  match blockOf? spans label with
  | some b => .ok b
  | none => .error (.invariant (.undefinedLabel label))

def lastCode? (codes : Array Code) (s : Span) : Option Code :=
  if s.start < s.stop then codes[s.stop - 1]? else none

def block (codes : Array Code) (exit : Symbol) (spans : List Span) (index : Nat) (s : Span) :
    Except CompileError Block := do
  let following := if index + 1 < spans.length then some (index + 1) else none
  match lastCode? codes s with
  | some (.jump l) => return ⟨s, some (← target spans l), none, true⟩
  | some (.ret _) => return ⟨s, some (← target spans exit), none, true⟩
  | some (.branch _ l) => return ⟨s, following, some (← target spans l), true⟩
  | _ => return ⟨s, following, none, true⟩

/-- Splits codes into blocks; `exit` is where returns go. -/
def build (codes : Array Code) (exit : Symbol) : Except CompileError FlowGraph := do
  let spans := spans codes.toList
  let blocks ← spans.zipIdx.mapM fun (s, i) => block codes exit spans i s
  return ⟨blocks.toArray⟩

def successors (g : FlowGraph) (b : Nat) : List Nat :=
  match g.blocks[b]? with
  | some block => block.successors
  | none => []

/-- Visits blocks from a worklist, the last one first; each visit of a new block adds its
successors. -/
def visit (g : FlowGraph) : (fuel : Nat) → (work : List Nat) → (seen : Array Bool) → Array Bool
  | 0, _, seen => seen
  | _, [], seen => seen
  | fuel + 1, b :: work, seen =>
    if seen.getD b true then g.visit fuel work seen
    else g.visit fuel ((g.successors b).reverse ++ work) (seen.setIfInBounds b true)

/-- The blocks that a path from the first block reaches. Every block adds at most two successors,
so a step for the first block and two for each block empty the worklist. -/
def reached (g : FlowGraph) : Array Bool :=
  g.visit (2 * g.blocks.size + 1) [0] (Array.replicate g.blocks.size false)

/-- Marks the blocks that a path from the first block reaches, and counts the others. -/
def prune (g : FlowGraph) : Nat × FlowGraph :=
  let reached := g.reached
  let blocks := g.blocks.mapIdx fun i b => { b with reachable := reached.getD i false }
  (blocks.countP (!·.reachable), ⟨blocks⟩)

def reachableBlocks (g : FlowGraph) : List Block := g.blocks.toList.filter (·.reachable)

def countCodes (g : FlowGraph) (codes : Array Code) (test : Code → Bool) : Nat :=
  g.reachableBlocks.foldl
    (fun n b => n + (codes.extract b.span.start b.span.stop).countP test) 0

def conditionalJumps (g : FlowGraph) (codes : Array Code) : Nat :=
  g.countCodes codes fun
    | .branch .. => true
    | _ => false

def unconditionalJumps (g : FlowGraph) (codes : Array Code) : Nat :=
  g.countCodes codes fun
    | .jump _ | .ret _ => true
    | _ => false

end FlowGraph

end CBackend

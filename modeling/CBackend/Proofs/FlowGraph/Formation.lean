import Mathlib.Tactic.ByContra
import CBackend.Proofs.FlowGraph.Edges
import CBackend.Proofs.Semantics.Machine

/-!
How linear code is cut into blocks. The blocks are the codes in order; a label begins a block and a
jump ends one. The ways of control, and so the steps of the machine, are the edges between blocks and
the steps inside them, and the only codes without a flow graph are those that go to a label that is
not placed.
-/

namespace CBackend

section Machine

variable {W : Type} {σ : Workings W} {t : SymbolTable} {f : LinearFunction} {s s' : State W}

theorem LinearFunction.goto_label {l : Symbol} (goes : f.goto l s = some s') :
    f.codes[s'.pos]? = some (.label l) := by
  obtain ⟨p, found, same⟩ := Option.bind_eq_some_iff.mp goes
  cases same
  obtain ⟨inside, placed, -⟩ := Array.findIdx?_eq_some_iff_getElem.mp found
  rw [Array.getElem?_eq_getElem inside, of_decide_eq_true placed]

theorem LinearFunction.step_follows (step : f.step σ t s = some s')
    (inside : s'.pos < f.codes.size) : f.Follows s.pos s'.pos := by
  obtain ⟨c, here, step⟩ := Option.bind_eq_some_iff.mp step
  have next (stays : c.leaves = false) (pos : s'.pos = s.pos + 1) : f.Follows s.pos s'.pos := by
    rw [pos] at inside ⊢
    exact .next here stays inside
  cases c with
  | eval lin =>
    obtain ⟨_, _, step⟩ := Option.bind_eq_some_iff.mp step
    cases step
    exact next rfl rfl
  | arg lin | zeroFill lin bytes =>
    obtain ⟨_, _, step⟩ := Option.bind_eq_some_iff.mp step
    obtain ⟨_, _, step⟩ := Option.bind_eq_some_iff.mp step
    cases step
    exact next rfl rfl
  | jump l => exact .jump here rfl (goto_label step)
  | branch lin l =>
    obtain ⟨_, _, step⟩ := Option.bind_eq_some_iff.mp step
    split at step
    · exact .jump here rfl (goto_label step)
    · cases step
      exact next rfl rfl
  | ret value =>
    obtain ⟨_, _, step⟩ := Option.bind_eq_some_iff.mp step
    obtain ⟨_, _, step⟩ := Option.bind_eq_some_iff.mp step
    exact .jump here rfl (goto_label step)
  | frameExit => cases step
  | label | blockEnter | blockLeave | declare | frameEnter =>
    cases step
    exact next rfl rfl

end Machine

namespace FlowGraph

/-- A flow graph cuts the codes of a function before the labels and behind the jumps. -/
structure Cuts (g : FlowGraph) (f : LinearFunction) : Prop where
  positions : g.blocks.toList.flatMap Gen.positions = List.range f.codes.size
  labels : ∀ (k : Nat) (b : Block) (i : Nat) (l : Symbol), g.blocks[k]? = some b →
    b.span.start ≤ i → i < b.span.stop → f.codes[i]? = some (.label l) →
    i = b.span.start ∧ b.span.label = some l
  opened : ∀ (k : Nat) (b : Block) (l : Symbol), g.blocks[k]? = some b → b.span.label = some l →
    f.codes[b.span.start]? = some (.label l)
  jumps : ∀ (k : Nat) (b : Block) (i : Nat) (c : Code), g.blocks[k]? = some b →
    b.span.start ≤ i → i < b.span.stop → f.codes[i]? = some c → c.isJump = true →
    i + 1 = b.span.stop
  atLeast : max 1 f.labelCount ≤ g.blocks.size
  atMost : g.blocks.size ≤ f.labelCount + f.jumpCount + 1
  exits : ∀ (k : Nat) (b : Block), g.blocks[k]? = some b →
    Exits g.Opens f.exit (g.behind k) b (lastCode? f.codes b.span)
  follows : f.LabelsUnique → ∀ i j, f.Follows i j ↔ g.Steps i j
  machine : f.LabelsUnique → ∀ {W : Type} (σ : Workings W) (t : SymbolTable) (s s' : State W),
    f.step σ t s = some s' → s'.pos < f.codes.size → g.Steps s.pos s'.pos

theorem build_cuts {f : LinearFunction} {g : FlowGraph} (ok : build f.codes f.exit = .ok g) :
    g.Cuts f where
  positions := flatMap_positions ok
  labels k b i l block after upTo placed := by
    have framed := framed_build ok block
    have placed' : f.codes.toList[i]? = some (.label l) := by simpa using placed
    have first : i = b.span.start := by
      refine Nat.le_antisymm (Nat.le_of_not_lt fun later => ?_) after
      exact framed.labels i l later upTo placed'
    exact ⟨first, (framed.opened l).mpr (first ▸ placed')⟩
  opened k b l block label := by
    have opened := ((framed_build ok block).opened l).mp label
    simpa using opened
  jumps k b i c block after upTo here jumps := by
    by_contra other
    have plain := (framed_build ok block).jumps i c after (by omega) (by simpa using here)
    rw [plain] at jumps
    cases jumps
  atLeast := by
    rw [← length_spans ok, LinearFunction.labelCount, ← Array.countP_toList]
    exact le_length_spans f.codes.toList
  atMost := by
    rw [← length_spans ok, LinearFunction.labelCount, LinearFunction.jumpCount,
      ← Array.countP_toList, ← Array.countP_toList]
    exact length_spans_le f.codes.toList
  exits k b block := exits_build ok block
  follows unique i j := ⟨steps_of_follows ok unique, follows_of_steps ok⟩
  machine unique W σ t s s' step inside := steps_of_follows ok unique (f.step_follows step inside)

theorem build_fails_iff {f : LinearFunction} :
    (∃ e, build f.codes f.exit = .error e) ↔
      ∃ c ∈ f.codes, ∃ l, c.target? f.exit = some l ∧ .label l ∉ f.codes := by
  constructor
  · rintro ⟨e, failed⟩
    by_contra none
    have placed : ∀ c ∈ f.codes, ∀ l, c.target? f.exit = some l → .label l ∈ f.codes := by
      intro c inside l target
      by_contra missing
      exact none ⟨c, inside, l, target, missing⟩
    obtain ⟨g, ok⟩ := build_of_placed placed
    rw [ok] at failed
    cases failed
  · rintro ⟨c, inside, l, target, missing⟩
    cases result : build f.codes f.exit with
    | error e => exact ⟨e, rfl⟩
    | ok g =>
      obtain ⟨i, here⟩ := Array.mem_iff_getElem?.mp inside
      obtain ⟨_, _, _, _, _, _, _, _, _, placed⟩ := exists_target result here target
      exact absurd (Array.mem_of_getElem? placed) missing

/-- Blocks are formed exactly: a flow graph cuts the codes before the labels and behind the jumps,
its edges are the ways of control between its blocks, and there is none only for codes that go to a
label that is not placed. -/
theorem build_exact (f : LinearFunction) :
    (∀ g, build f.codes f.exit = .ok g → g.Cuts f) ∧
      ((∃ e, build f.codes f.exit = .error e) ↔
        ∃ c ∈ f.codes, ∃ l, c.target? f.exit = some l ∧ .label l ∉ f.codes) :=
  ⟨fun _ => build_cuts, build_fails_iff⟩

/-- A loop that is entered at its test, with a return behind it. -/
def loop : LinearFunction where
  name := ⟨0⟩
  ret := .void
  params := []
  codes := #[.frameEnter, .jump ⟨2⟩, .label ⟨1⟩, .eval ⟨0⟩, .label ⟨2⟩, .branch ⟨1⟩ ⟨1⟩, .ret none,
    .label ⟨3⟩, .frameExit]
  nodes := #[]
  exit := ⟨3⟩

theorem loop_exact : loop.LabelsUnique ∧ (∃ g, build loop.codes loop.exit = .ok g ∧
    g.blocks.size = 5 ∧ g.Cuts loop) ∧ ∃ e, build loop.codes ⟨4⟩ = .error e := by
  have built : (build loop.codes loop.exit).toOption.map (·.blocks.size) = some 5 := by decide
  obtain ⟨g, ok, size⟩ : ∃ g, build loop.codes loop.exit = .ok g ∧ g.blocks.size = 5 := by
    cases result : build loop.codes loop.exit with
    | ok g =>
      rw [result] at built
      exact ⟨g, rfl, Option.some.inj built⟩
    | error e =>
      rw [result] at built
      cases built
  refine ⟨by decide, ⟨g, ok, size, (build_exact loop).1 g ok⟩, ?_⟩
  have returns : Code.ret none ∈ loop.codes := by simp [loop]
  have missing : Code.label ⟨4⟩ ∉ loop.codes := by simp [loop]
  exact (build_exact { loop with exit := ⟨4⟩ }).2.mpr ⟨.ret none, returns, ⟨4⟩, rfl, missing⟩

end FlowGraph

end CBackend

import CBackend.Proofs.Flow
import CBackend.Proofs.Lowering.Growth
import CBackend.Proofs.Semantics.Machine

/-!
How a run passes through code that a part of a function was lowered to. The code of the part is a
segment of the whole, and a run through it leaves alone what was there before: the values of earlier
operators and the temporaries of other parts.
-/

namespace CBackend

structure Draft.Within (d : Draft) (t : SymbolTable) (f : LinearFunction) : Prop where
  codes : d.codes <+: f.codes.toList
  nodes : d.nodes <+: f.nodes.toList
  symbols : d.symbols.Grows t

namespace Draft.Within

variable {d d' : Draft} {t : SymbolTable} {f : LinearFunction} {c : Code} {n : LinNode}

theorem of_grows (inside : d'.Within t f) (grows : d.Grows d') : d.Within t f :=
  ⟨grows.codes.trans inside.codes, grows.nodes.trans inside.nodes,
    grows.symbols.trans inside.symbols⟩

theorem code_at (inside : (d.code c).Within t f) : f.codes[d.codes.length]? = some c := by
  obtain ⟨rest, appended⟩ := inside.codes
  rw [← Array.getElem?_toList, ← appended]
  simp [Draft.code]

theorem emit_at (inside : (d.emit n).Within t f) : f.codes[d.codes.length]? = some (.eval d.next) := by
  obtain ⟨rest, appended⟩ := inside.codes
  rw [← Array.getElem?_toList, ← appended]
  simp [Draft.emit]

theorem node_eq (inside : d.Within t f) {l : LinId} (found : d.nodes[l.index]? = some n) :
    f.node l = n := by
  obtain ⟨rest, appended⟩ := inside.nodes
  have bound := (List.getElem?_eq_some_iff.mp found).1
  rw [LinearFunction.node, Array.getD_eq_getD_getElem?, ← Array.getElem?_toList, ← appended,
    List.getElem?_append_left bound, found]
  rfl

theorem emit_node (inside : (d.emit n).Within t f) : f.node d.next = n :=
  inside.node_eq (by simp [Draft.emit, Draft.next])

end Draft.Within

structure Kept (d : Draft) (h h' : Held) : Prop where
  items : ∀ l : LinId, l.index < d.nodes.length → h'.items l = h.items l
  temps : ∀ sym : Symbol, sym.index < d.symbols.size → h'.temps sym = h.temps sym

namespace Kept

variable {d d₁ : Draft} {h h₁ h₂ : Held}

theorem refl (d : Draft) (h : Held) : Kept d h h := ⟨fun _ _ => rfl, fun _ _ => rfl⟩

theorem weaken (kept : Kept d₁ h h₁) (grows : d.Grows d₁) : Kept d h h₁ where
  items l old := kept.items l (Nat.lt_of_lt_of_le old grows.nodes.length_le)
  temps sym old := kept.temps sym (Nat.lt_of_lt_of_le old grows.symbols.size_le)

theorem trans (first : Kept d h h₁) (second : Kept d₁ h₁ h₂) (grows : d.Grows d₁) :
    Kept d h h₂ where
  items l old := ((second.weaken grows).items l old).trans (first.items l old)
  temps sym old := ((second.weaken grows).temps sym old).trans (first.temps sym old)

end Kept

namespace LinearFunction

variable {W : Type} {σ : Workings W} {t : SymbolTable} {f : LinearFunction} {s : State W}
  {d : Draft} {c : Code} {l : Symbol} {p : Nat}

/-- Where a branch goes: to a label, or to the code that follows. -/
def Lands (f : LinearFunction) (l : Option Symbol) (fall p : Nat) : Prop :=
  match l with
  | some l => f.codes[p]? = some (.label l)
  | none => p = fall

theorem place?_eq (unique : f.LabelsUnique) (placed : f.codes[p]? = some (.label l)) :
    f.place? l = some p := by
  obtain ⟨bound, found⟩ := Array.getElem?_eq_some_iff.mp placed
  refine Array.findIdx?_eq_some_iff_getElem.mpr ⟨bound, by simp [found], fun q less holds => ?_⟩
  have other : f.codes[q]? = some (.label l) := by
    rw [Array.getElem?_eq_getElem (Nat.lt_trans less bound)]
    exact congrArg some (of_decide_eq_true holds)
  exact absurd (unique q p l other placed) (Nat.ne_of_lt less)

theorem goto_eq (unique : f.LabelsUnique) (placed : f.codes[p]? = some (.label l)) (s : State W) :
    f.goto l s = some { s with pos := p } := by
  rw [goto, place?_eq unique placed]
  rfl

def marks : Code → Bool
  | .label _ | .blockEnter _ | .blockLeave _ | .declare _ | .frameEnter => true
  | _ => false

theorem step_mark (inside : (d.code c).Within t f) (here : s.pos = d.codes.length)
    (mark : marks c = true) : step σ t f s = some { s with pos := (d.code c).codes.length } := by
  have next : s.next = { s with pos := (d.code c).codes.length } := by
    simp [State.next, Draft.code, here]
  rw [step, here, inside.code_at, ← next]
  cases c <;> first | rfl | cases mark

theorem runs_mark (inside : (d.code c).Within t f) (here : s.pos = d.codes.length)
    (mark : marks c = true) : Runs σ t f s { s with pos := (d.code c).codes.length } :=
  .single (step_mark inside here mark)

theorem runs_jump (unique : f.LabelsUnique) (inside : (d.code (.jump l)).Within t f)
    (here : s.pos = d.codes.length) (placed : f.codes[p]? = some (.label l)) :
    Runs σ t f s { s with pos := p } := by
  refine .single ?_
  rw [step, here, inside.code_at]
  exact goto_eq unique placed s

end LinearFunction

end CBackend

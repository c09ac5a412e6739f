import CBackend.Proofs.Lowering.Derivation
import CBackend.Proofs.Lowering.Ledger

/-!
Lowering puts its code together as a ledger does. A value is left waiting for its use, whatever else
is computed for it is dropped, and the labels made for a part are placed when the part is complete.
-/

namespace CBackend

mutual

/-- Whether a variable of a statement is cleared where it is declared. -/
def Stmt.fills : Stmt → Bool
  | .when _ body | .while _ body => body.fills
  | .ifElse _ a b => a.fills || b.fills
  | .block decls body => decls.any Decl.zeroFill || Stmt.anyFills body
  | .expr _ | .ret _ | .break | .continue => false

def Stmt.anyFills : List Stmt → Bool
  | [] => false
  | s :: ss => s.fills || Stmt.anyFills ss

end

namespace Task

def labels (exit : Symbol) : Task → List Symbol
  | branch _ t f | jump _ t f => t.toList ++ f.toList
  | stmt loops _ _ | stmts loops _ _ => exit :: loops.flatMap fun l => [l.next, l.done]
  | _ => []

def isStatement : Task → Bool
  | stmt .. | stmts .. => true
  | _ => false

def fills : Task → Bool
  | decls ds => ds.any Decl.zeroFill
  | stmt _ _ s => s.fills
  | stmts _ _ ss => Stmt.anyFills ss
  | _ => false

def Leaves : Task → List (LinId × Nat) → Prop
  | value _ id, top | compute _ id, top => ∃ a, top = [(id, a)]
  | _, top => top = []

end Task

theorem SymbolTable.size_le_intern (t : SymbolTable) (name : String) (kind : SymbolKind)
    (ty : CType) : t.size ≤ (t.intern name kind ty).2.size := by
  unfold SymbolTable.intern
  split
  · exact Nat.le_refl _
  · rw [SymbolTable.size_push]
    exact Nat.le_succ _

namespace Ledger

variable {exit l : Symbol} {fills : Bool} {g g' : Ledger} {ahead : List (Symbol × Nat)}

theorem Step.moves (step : Step exit fills g g') :
    g.heads ⊆ g'.heads ∧ g.draft.codes <+: g'.draft.codes := by
  cases step with
  | settle | intern | label | drop => exact ⟨fun _ inside => inside, List.prefix_refl _⟩
  | emit | code | place => exact ⟨fun _ inside => inside, List.prefix_append _ _⟩
  | head => exact ⟨fun _ inside => List.mem_cons_of_mem _ inside, List.prefix_append _ _⟩

theorem Steps.moves (steps : Steps exit fills g g') :
    g.heads ⊆ g'.heads ∧ g.draft.codes <+: g'.draft.codes := by
  induction steps with
  | refl => exact ⟨fun _ inside => inside, List.prefix_refl _⟩
  | tail _ step ih =>
    exact ⟨fun _ inside => step.moves.1 (ih.1 inside), ih.2.trans step.moves.2⟩

/-- Steps lead to a ledger with the given draft, values that wait and labels to be placed. -/
def Reaches (exit : Symbol) (fills : Bool) (g : Ledger) (d : Draft) (pending : List (LinId × Nat))
    (ahead : List (Symbol × Nat)) : Prop :=
  ∃ g', Steps exit fills g g' ∧ g'.draft = d ∧ g'.pending = pending ∧ g'.ahead = ahead

/-- A label that can be jumped to once the labels to be placed are `ahead`. -/
def CanGo (g : Ledger) (ahead : List (Symbol × Nat)) (l : Symbol) : Prop :=
  (∃ h, (l, h) ∈ ahead) ∨ ∃ t ∈ g.heads, g.draft.codes[t]? = some (.label l)

def Calm (ahead : List (Symbol × Nat)) (rest : List (LinId × Nat)) : Prop :=
  ∀ x ∈ ahead, x.2 ≤ rest.length

theorem Calm.grow {rest : List (LinId × Nat)} (calm : Calm ahead rest) (top : List (LinId × Nat)) :
    Calm ahead (top ++ rest) := by
  intro x inside
  have := calm x inside
  rw [List.length_append]
  omega

theorem Calm.label {rest : List (LinId × Nat)} (calm : Calm ahead rest) (l : Symbol) :
    Calm ((l, rest.length) :: ahead) rest := by
  intro x inside
  rcases List.mem_cons.mp inside with rfl | old
  · exact Nat.le_refl _
  · exact calm x old

theorem CanGo.grow (can : g.CanGo ahead l) (more : List (Symbol × Nat)) :
    g.CanGo (more ++ ahead) l :=
  can.imp_left fun ⟨h, inside⟩ => ⟨h, List.mem_append_right more inside⟩

theorem canGo_head (g : Ledger) {h : Nat} : g.CanGo ((l, h) :: ahead) l :=
  .inl ⟨h, List.mem_cons_self⟩

theorem CanGo.available (can : g.CanGo g'.ahead l) (steps : Steps exit fills g g') :
    g'.Available l := by
  obtain ⟨heads, more, codes⟩ := steps.moves
  refine can.imp_right ?_
  rintro ⟨t, head, placed⟩
  refine ⟨t, heads head, ?_⟩
  rw [← codes, List.getElem?_append_left (List.getElem?_eq_some_iff.mp placed).1, placed]

theorem waits_one {p : List (LinId × Nat)} {v : LinId} {x : Nat} (waits : (v, x) ∈ p) : ∀ l ∈
    [v], ∃ x, (l, x) ∈ p := by
  intro l inside
  rw [List.mem_singleton.mp inside]
  exact ⟨x, waits⟩

theorem waits_two {p : List (LinId × Nat)} {v w : LinId} {x y : Nat} (first : (v, x) ∈ p)
    (second : (w, y) ∈ p) :
    ∀ l ∈ [v, w], ∃ x, (l, x) ∈ p := by
  intro l inside
  rcases List.mem_cons.mp inside with rfl | inside
  · exact ⟨x, first⟩
  · exact waits_one second l inside

namespace Reaches

variable {d : Draft} {p rest : List (LinId × Nat)} {a : List (Symbol × Nat)} {v w : LinId}
  {x y : Nat}

theorem start : Reaches exit fills g g.draft g.pending g.ahead := ⟨g, .refl, rfl, rfl, rfl⟩

theorem settle (reaches : Reaches exit fills g d p a) (number : Nat) (id : LinId) :
    Reaches exit fills g (d.settle number id) p a := by
  obtain ⟨g', steps, rfl, rest⟩ := reaches
  exact ⟨_, .tail steps (.settle _), rfl, rest⟩

theorem intern (reaches : Reaches exit fills g d p a) {symbols : SymbolTable}
    (more : d.symbols.size ≤ symbols.size) : Reaches exit fills g { d with symbols } p a := by
  obtain ⟨g', steps, rfl, rest⟩ := reaches
  exact ⟨_, .tail steps (.intern more), rfl, rest⟩

theorem emit (reaches : Reaches exit fills g d p a) {n : LinNode} (proper : n.Proper)
    (wait : ∀ l ∈ n.kids, ∃ x, (l, x) ∈ p) :
    Reaches exit fills g (d.emit n) ((d.next, d.codes.length) :: p) a := by
  obtain ⟨g', steps, rfl, rfl, rfl⟩ := reaches
  exact ⟨_, .tail steps (.emit proper wait), rfl, rfl, rfl⟩

theorem code (reaches : Reaches exit fills g d p a) {c : Code} (plain : c.isPlain = true)
    (fill : c.isFill = true → fills = true) (wait : ∀ l ∈ c.operands, ∃ x, (l, x) ∈ p)
    (target : ∀ l, c.target? exit = some l → g.CanGo a l) :
    Reaches exit fills g (d.code c) p a := by
  obtain ⟨g', steps, rfl, rfl, rfl⟩ := reaches
  refine ⟨_, .tail steps (.code plain fill wait fun l goes => ?_), rfl, rfl, rfl⟩
  exact (target l goes).available steps

theorem label (reaches : Reaches exit fills g d p a) :
    Reaches exit fills g d.label p ((d.fresh, p.length) :: a) := by
  obtain ⟨g', steps, rfl, rfl, rfl⟩ := reaches
  exact ⟨_, .tail steps .label, rfl, rfl, rfl⟩

theorem place (before : List (Symbol × Nat)) {after : List (Symbol × Nat)}
    (reaches : Reaches exit fills g d p (before ++ (l, p.length) :: after)) :
    Reaches exit fills g (d.place l) p (before ++ after) := by
  obtain ⟨g', steps, rfl, rfl, open_⟩ := reaches
  exact ⟨_, .tail steps (.place open_), rfl, rfl, rfl⟩

theorem head (before : List (Symbol × Nat)) {after : List (Symbol × Nat)}
    (reaches : Reaches exit fills g d [] (before ++ (l, 0) :: after)) :
    ∃ g', Reaches exit fills g' (d.place l) [] (before ++ after) ∧ (∀ a', g'.CanGo a' l) ∧
      (∀ k, g.CanGo (before ++ after) k → g'.CanGo (before ++ after) k) ∧
      ∀ d' p' a', Reaches exit fills g' d' p' a' → Reaches exit fills g d' p' a' := by
  obtain ⟨g₁, steps, rfl, idle, open_⟩ := reaches
  have all := steps.tail (.head open_ idle)
  refine ⟨{ g₁ with
    draft := g₁.draft.place l
    ahead := before ++ after
    heads := g₁.draft.codes.length :: g₁.heads }, ⟨_, .refl, rfl, idle, rfl⟩, ?_, fun k can => ?_, ?_⟩
  · intro a'
    exact .inr ⟨_, List.mem_cons_self, getElem?_concat_eq_some.mpr (.inr ⟨rfl, rfl⟩)⟩
  · exact can.available all
  · rintro d' p' a' ⟨g₂, more, result⟩
    exact ⟨g₂, all.trans more, result⟩

theorem keep (top : List (LinId × Nat)) (reaches : Reaches exit fills g d (top ++ rest) a)
    (calm : Calm a rest) {kept : List (LinId × Nat)} (sub : kept.Sublist top) :
    Reaches exit fills g d (kept ++ rest) a := by
  obtain ⟨g', steps, rfl, split, rfl⟩ := reaches
  exact ⟨_, .tail steps (.drop split sub calm), rfl, rfl, rfl⟩

theorem drop (top : List (LinId × Nat)) (reaches : Reaches exit fills g d (top ++ rest) a)
    (calm : Calm a rest) : Reaches exit fills g d rest a :=
  reaches.keep top calm (List.nil_sublist top)

theorem operator (top : List (LinId × Nat)) (reaches : Reaches exit fills g d (top ++ rest) a)
    (calm : Calm a rest) {n : LinNode} (proper : n.Proper)
    (wait : ∀ l ∈ n.kids, ∃ x, (l, x) ∈ top) :
    Reaches exit fills g (d.emit n) ((d.next, d.codes.length) :: rest) a := by
  have emitted := reaches.emit proper fun l inside => by
    obtain ⟨x, waits⟩ := wait l inside
    exact ⟨x, List.mem_append_left rest waits⟩
  exact emitted.keep ((d.next, d.codes.length) :: top) calm
    (List.singleton_sublist.mpr List.mem_cons_self)

theorem address (reaches : Reaches exit fills g d p a) (sym : Symbol) :
    Reaches exit fills g (d.addr sym) ((d.next, d.codes.length) :: p) a :=
  reaches.emit rfl (by simp [LinNode.kids])

theorem constant (reaches : Reaches exit fills g d p a)
    {intern : SymbolTable → Symbol × SymbolTable} {ty : CType}
    (more : d.symbols.size ≤ (intern d.symbols).2.size) :
    Reaches exit fills g (d.constant intern ty) ((d.next, d.codes.length) :: p) a :=
  (reaches.intern more).emit rfl (by simp [LinNode.kids])

theorem zero (reaches : Reaches exit fills g d p a) (ty : CType) :
    Reaches exit fills g (d.zero ty) ((d.next, d.codes.length) :: p) a := by
  refine reaches.constant ?_
  split
  · exact SymbolTable.size_le_intern ..
  · exact SymbolTable.size_le_intern ..

theorem one (reaches : Reaches exit fills g d p a) :
    Reaches exit fills g d.one ((d.next, d.codes.length) :: p) a :=
  reaches.constant (SymbolTable.size_le_intern ..)

theorem temp (reaches : Reaches exit fills g d p a) (ty : CType) :
    Reaches exit fills g (d.temp ty) p a := by
  have grown : (d.symbols.temp ty).2.size = d.symbols.size + 1 := SymbolTable.size_push ..
  refine (reaches.intern (Nat.le.intro grown.symm)).code rfl ?_ ?_ ?_
  · simp [Code.isFill]
  · simp [Code.operands]
  · simp [Code.target?]

theorem load (reaches : Reaches exit fills g d p a) (calm : Calm a p) (sym : Symbol) (ty : CType) :
    Reaches exit fills g (d.load sym ty)
      (((d.addr sym).next, (d.addr sym).codes.length) :: p) a :=
  (reaches.address sym).operator [_] calm (n := { op := .load, ty, left := some d.next }) ⟨rfl, nofun⟩
    (waits_one List.mem_cons_self)

theorem store (reaches : Reaches exit fills g d ((v, x) :: p) a) (calm : Calm a p) (sym : Symbol)
    (ty : CType) : Reaches exit fills g (d.store sym ty v) p a :=
  ((reaches.address sym).operator [_, _] calm
    (n := { op := .assign, ty, left := some d.next, right := some v }) nofun
    (waits_two List.mem_cons_self (List.mem_cons_of_mem _ List.mem_cons_self))).drop [_] calm

theorem assign (reaches : Reaches exit fills g d ((w, y) :: (v, x) :: p) a) (calm : Calm a p)
    (ty : CType) :
    Reaches exit fills g (d.emit { op := .assign, ty, left := some v, right := some w })
      ((w, y) :: p) a := by
  have stored := reaches.emit (n := { op := .assign, ty, left := some v, right := some w }) nofun
    (waits_two (List.mem_cons_of_mem _ List.mem_cons_self) List.mem_cons_self)
  exact stored.keep [_, (w, y), (v, x)] calm (List.singleton_sublist.mpr (by simp))

theorem jump (reaches : Reaches exit fills g d p a) (can : g.CanGo a l) :
    Reaches exit fills g (d.code (.jump l)) p a := by
  refine reaches.code rfl nofun nofun ?_
  rintro _ ⟨⟩
  exact can

theorem branch (reaches : Reaches exit fills g d ((w, y) :: (v, x) :: p) a) (calm : Calm a p)
    (cond : Cond) (can : g.CanGo a l) :
    Reaches exit fills g ((d.comparison cond v w).code (.branch d.next l)) p a := by
  have compared := reaches.operator [_, _] calm
    (n := { op := .cmp cond, ty := .int, left := some v, right := some w }) nofun
    (waits_two (List.mem_cons_of_mem _ List.mem_cons_self) List.mem_cons_self)
  refine (compared.code (c := .branch d.next l) rfl nofun (waits_one List.mem_cons_self) ?_).drop
    [_] calm
  rintro _ ⟨⟩
  exact can

theorem compare (reaches : Reaches exit fills g d ((w, y) :: (v, x) :: p) a) (calm : Calm a p)
    (cond : Cond) {t f : Option Symbol} (labelled : t.isSome ∨ f.isSome)
    (can : ∀ l ∈ t.toList ++ f.toList, g.CanGo a l) :
    Reaches exit fills g (d.compare cond v w t f) p a := by
  match t, f with
  | some t, some f => exact (reaches.branch calm cond (can t (by simp))).jump (can f (by simp))
  | some t, none => exact reaches.branch calm cond (can t (by simp))
  | none, some f => exact reaches.branch calm cond.negate (can f (by simp))
  | none, none => simp at labelled

theorem jumpTo (reaches : Reaches exit fills g d p a) {l : Option Symbol}
    (can : ∀ k ∈ l.toList, g.CanGo a k) : Reaches exit fills g (d.jumpTo l) p a := by
  cases l with
  | none => exact reaches
  | some l => exact reaches.jump (can l List.mem_cons_self)

theorem test (reaches : Reaches exit fills g d ((v, x) :: p) a) (calm : Calm a p) (ty : CType)
    {t f : Option Symbol} (labelled : t.isSome ∨ f.isSome)
    (can : ∀ l ∈ t.toList ++ f.toList, g.CanGo a l) : Reaches exit fills g (d.test ty v t f) p a :=
  (reaches.zero ty).compare calm .ne labelled can

theorem ret (reaches : Reaches exit fills g d p a) (value : Option LinId)
    (wait : ∀ l ∈ (Code.ret value).operands, ∃ x, (l, x) ∈ p) (can : g.CanGo a exit) :
    Reaches exit fills g (d.code (.ret value)) p a := by
  refine reaches.code rfl nofun wait ?_
  rintro _ ⟨⟩
  exact can

theorem declare (reaches : Reaches exit fills g d p a) (calm : Calm a p) {sym : Symbol}
    {zeroFill : Bool} (fill : zeroFill = true → fills = true) :
    Reaches exit fills g (if zeroFill then (d.code (.declare sym)).clear sym
      else d.code (.declare sym)) p a := by
  have declared := reaches.code (c := .declare sym) rfl nofun nofun nofun
  cases zeroFill with
  | false => exact declared
  | true =>
    exact ((declared.address sym).code (c := .zeroFill _ _) rfl (fun _ => fill rfl)
      (waits_one List.mem_cons_self) nofun).drop [_] calm

end Reaches

/-- What a part needs of the values that wait and the labels to be placed. -/
structure Ready (exit : Symbol) (fills : Bool) (task : Task) (g : Ledger) (p : List (LinId × Nat))
    (a : List (Symbol × Nat)) : Prop where
  labels : ∀ l ∈ task.labels exit, g.CanGo a l
  calm : Calm a p
  idle : task.isStatement = true → p = []
  fill : task.fills = true → fills = true

theorem fills_left {b c : Bool} (fill : (b || c) = true → fills = true) :
    b = true → fills = true := fun here => fill (Bool.or_eq_true_iff.mpr (.inl here))

theorem fills_right {b c : Bool} (fill : (b || c) = true → fills = true) :
    c = true → fills = true := fun here => fill (Bool.or_eq_true_iff.mpr (.inr here))

/-- A part is added, its value left waiting and its labels placed. -/
def Assembles (exit : Symbol) (fills : Bool) (task : Task) (d d' : Draft) : Prop :=
  ∀ ⦃g p a⦄, Reaches exit fills g d p a → Ready exit fills task g p a →
    ∃ top, task.Leaves top ∧ Reaches exit fills g d' (top ++ p) a

section Assembles

variable {d d₁ : Draft} {p : List (LinId × Nat)} {a : List (Symbol × Nat)} {e : Expr} {v : LinId}

theorem Assembles.value (assembles : Assembles exit fills (.value e v) d d₁)
    (reaches : Reaches exit fills g d p a) (calm : Calm a p) :
    ∃ x, Reaches exit fills g d₁ ((v, x) :: p) a := by
  obtain ⟨_, ⟨x, rfl⟩, reaches⟩ := assembles reaches ⟨nofun, calm, nofun, nofun⟩
  exact ⟨x, reaches⟩

theorem Assembles.effect (assembles : Assembles exit fills (.effect e) d d₁)
    (reaches : Reaches exit fills g d p a) (calm : Calm a p) : Reaches exit fills g d₁ p a := by
  obtain ⟨_, rfl, reaches⟩ := assembles reaches ⟨nofun, calm, nofun, nofun⟩
  exact reaches

theorem Assembles.branch {t f : Option Symbol}
    (assembles : Assembles exit fills (.branch e t f) d d₁)
    (reaches : Reaches exit fills g d p a) (calm : Calm a p)
    (labels : ∀ l ∈ t.toList ++ f.toList, g.CanGo a l) : Reaches exit fills g d₁ p a := by
  obtain ⟨_, rfl, reaches⟩ := assembles reaches ⟨labels, calm, nofun, nofun⟩
  exact reaches

theorem Assembles.stmt {loops : List LoopLabels} {level : Nat} {t : Stmt}
    (assembles : Assembles exit fills (.stmt loops level t) d d₁)
    (reaches : Reaches exit fills g d p a) (ready : Ready exit fills (.stmt loops level t) g p a) :
    Reaches exit fills g d₁ p a := by
  obtain ⟨_, rfl, reaches⟩ := assembles reaches ready
  exact reaches

end Assembles

end Ledger

open Ledger

theorem UnaryOp.arith?_ne_addr {op : UnaryOp} {o : Op} (arith : op.arith? = some o) :
    o ≠ .addr := by
  cases op <;> cases arith <;> nofun

theorem BinaryOp.arith?_ne_addr {op : BinaryOp} {o : Op} (arith : op.arith? = some o) :
    o ≠ .addr := by
  cases op <;> cases arith <;> nofun

theorem Lowers.assembles {output : Option Symbol} {exit : Symbol} {fills : Bool} {task : Task}
    {d d' : Draft} (run : Lowers output false task d d') : Assembles exit fills task d d' := by
  induction run with
  | reuse shared => cases shared
  | first unknown _ ih =>
    intro g p a reaches ready
    obtain ⟨top, leaves, reaches⟩ := ih reaches ⟨nofun, ready.calm, nofun, nofun⟩
    exact ⟨top, leaves, reaches.settle _ _⟩
  | const =>
    intro g p a reaches ready
    exact ⟨[_], ⟨_, rfl⟩, reaches.emit rfl (by simp [LinNode.kids])⟩
  | addr =>
    intro g p a reaches ready
    exact ⟨[_], ⟨_, rfl⟩, reaches.address _⟩
  | deref _ ih =>
    intro g p a reaches ready
    obtain ⟨x, reaches⟩ := ih.value reaches ready.calm
    exact ⟨[_], ⟨_, rfl⟩,
      reaches.operator [_] ready.calm ⟨rfl, nofun⟩ (waits_one List.mem_cons_self)⟩
  | unary arith _ ih =>
    intro g p a reaches ready
    obtain ⟨x, reaches⟩ := ih.value reaches ready.calm
    exact ⟨[_], ⟨_, rfl⟩, reaches.operator [_] ready.calm ⟨rfl, UnaryOp.arith?_ne_addr arith⟩
      (waits_one List.mem_cons_self)⟩
  | not _ ih =>
    intro g p a reaches ready
    obtain ⟨x, reaches⟩ := ih.value reaches ready.calm
    exact ⟨[_], ⟨_, rfl⟩, (reaches.zero _).operator [_, _] ready.calm nofun
      (waits_two (List.mem_cons_of_mem _ List.mem_cons_self) List.mem_cons_self)⟩
  | binary arith _ _ ih₁ ih₂ =>
    intro g p a reaches ready
    obtain ⟨x, reaches⟩ := ih₁.value reaches ready.calm
    obtain ⟨y, reaches⟩ := ih₂.value reaches (ready.calm.grow [_])
    exact ⟨[_], ⟨_, rfl⟩, reaches.operator [_, _] ready.calm (BinaryOp.arith?_ne_addr arith)
      (waits_two (List.mem_cons_of_mem _ List.mem_cons_self) List.mem_cons_self)⟩
  | relation relational _ _ ih₁ ih₂ =>
    intro g p a reaches ready
    obtain ⟨x, reaches⟩ := ih₁.value reaches ready.calm
    obtain ⟨y, reaches⟩ := ih₂.value reaches (ready.calm.grow [_])
    exact ⟨[_], ⟨_, rfl⟩, reaches.operator [_, _] ready.calm nofun
      (waits_two (List.mem_cons_of_mem _ List.mem_cons_self) List.mem_cons_self)⟩
  | @truth tag op l r d d₁ d₂ d₃ d₄ logical declared _ yes no ih =>
    intro g p a reaches ready
    subst declared yes no
    have calm₁ := ready.calm.label (d.temp .int).fresh
    have calm₂ := calm₁.label (d.temp .int).label.fresh
    obtain ⟨_, rfl, reaches⟩ := ih (reaches.temp .int).label.label
      ⟨List.forall_mem_singleton.mpr ((canGo_head g).grow [_]), calm₂, nofun, nofun⟩
    have yes := ((reaches.one.store calm₂ d.fresh .int).jump (canGo_head g)).place [_]
    have no := ((yes.zero .int).store (ready.calm.label _) d.fresh .int).place []
    exact ⟨[_], ⟨_, rfl⟩, no.load ready.calm d.fresh .int⟩
  | assign wide _ _ ih₁ ih₂ =>
    intro g p a reaches ready
    obtain ⟨x, reaches⟩ := ih₁.value reaches ready.calm
    obtain ⟨y, reaches⟩ := ih₂.value reaches (ready.calm.grow [_])
    exact ⟨[_], ⟨y, rfl⟩, reaches.assign ready.calm _⟩
  | assignNarrow narrow _ _ stored ih₁ ih₂ =>
    intro g p a reaches ready
    subst stored
    obtain ⟨x, reaches⟩ := ih₁.value reaches ready.calm
    obtain ⟨y, reaches⟩ := ih₂.value reaches (ready.calm.grow [_])
    exact ⟨[_], ⟨_, rfl⟩, (reaches.assign ready.calm _).operator [_] ready.calm ⟨rfl, nofun⟩
      (waits_one List.mem_cons_self)⟩
  | condVoid void _ ih =>
    intro g p a reaches ready
    obtain ⟨_, rfl, reaches⟩ := ih reaches ⟨nofun, ready.calm, nofun, nofun⟩
    exact ⟨[_], ⟨_, rfl⟩, reaches.zero .int⟩
  | @cond tag c l r v w d d₁ d₂ d₃ d₄ d₅ d₆ valued declared _ _ yes _ no ih₁ ih₂ ih₃ =>
    intro g p a reaches ready
    subst declared yes no
    have calm₁ := ready.calm.label (d.temp tag.ty).fresh
    have calm₂ := calm₁.label (d.temp tag.ty).label.fresh
    have tested := ih₁.branch (reaches.temp tag.ty).label.label calm₂
      (List.forall_mem_singleton.mpr ((canGo_head g).grow [_]))
    obtain ⟨x, arm⟩ := ih₂.value tested calm₂
    have yes := ((arm.store calm₂ d.fresh tag.ty).jump (canGo_head g)).place [_]
    obtain ⟨y, other⟩ := ih₃.value yes (ready.calm.label _)
    have no := (other.store (ready.calm.label _) d.fresh tag.ty).place []
    exact ⟨[_], ⟨_, rfl⟩, no.load ready.calm d.fresh tag.ty⟩
  | call scalar _ _ ih₁ ih₂ =>
    intro g p a reaches ready
    obtain ⟨_, rfl, reaches⟩ := ih₁ reaches ⟨nofun, ready.calm, nofun, nofun⟩
    obtain ⟨x, reaches⟩ := ih₂.value reaches ready.calm
    exact ⟨[_], ⟨_, rfl⟩,
      reaches.operator [_] ready.calm ⟨rfl, nofun⟩ (waits_one List.mem_cons_self)⟩
  | @callStruct tag callee args f bytes d d₁ d₂ d₃ d₄ struct declared _ _ called ih₁ ih₂ =>
    intro g p a reaches ready
    subst declared called
    obtain ⟨_, rfl, reaches⟩ := ih₁ (reaches.temp tag.ty) ⟨nofun, ready.calm, nofun, nofun⟩
    have pushed := ((reaches.address d.fresh).code (c := .arg d₂.next) rfl nofun
      (waits_one List.mem_cons_self) nofun).drop [_] ready.calm
    obtain ⟨x, reaches⟩ := ih₂.value pushed ready.calm
    have called := (reaches.operator [_] ready.calm (n :=
      { op := .call, ty := .void, left := some f
        aux := ((bytes + roundToSlot CType.pointer.size : Nat) : Int) }) ⟨rfl, nofun⟩
      (waits_one List.mem_cons_self)).drop [_] ready.calm
    exact ⟨[_], ⟨_, rfl⟩, called.load ready.calm d.fresh tag.ty⟩
  | castKeep same _ ih =>
    intro g p a reaches ready
    obtain ⟨x, reaches⟩ := ih.value reaches ready.calm
    exact ⟨[_], ⟨x, rfl⟩, reaches⟩
  | cast differs _ ih =>
    intro g p a reaches ready
    obtain ⟨x, reaches⟩ := ih.value reaches ready.calm
    exact ⟨[_], ⟨_, rfl⟩,
      reaches.operator [_] ready.calm ⟨rfl, nofun⟩ (waits_one List.mem_cons_self)⟩
  | comma _ _ ih₁ ih₂ =>
    intro g p a reaches ready
    obtain ⟨x, reaches⟩ := ih₂.value (ih₁.effect reaches ready.calm) ready.calm
    exact ⟨[_], ⟨x, rfl⟩, reaches⟩
  | effectValue plain _ ih =>
    intro g p a reaches ready
    obtain ⟨x, reaches⟩ := ih.value reaches ready.calm
    exact ⟨[], rfl, reaches.drop [_] ready.calm⟩
  | effectKnown shared => cases shared
  | effectAnd unknown _ _ ih₁ ih₂ =>
    intro g p a reaches ready
    have first := ih₁.branch reaches.label (ready.calm.label _)
      (List.forall_mem_singleton.mpr (canGo_head g))
    exact ⟨[], rfl, (ih₂.effect first (ready.calm.label _)).place []⟩
  | effectOr unknown _ _ ih₁ ih₂ =>
    intro g p a reaches ready
    have first := ih₁.branch reaches.label (ready.calm.label _)
      (List.forall_mem_singleton.mpr (canGo_head g))
    exact ⟨[], rfl, (ih₂.effect first (ready.calm.label _)).place []⟩
  | effectCond unknown _ ih =>
    intro g p a reaches ready
    exact ih reaches ⟨nofun, ready.calm, nofun, nofun⟩
  | effectComma _ _ ih₁ ih₂ =>
    intro g p a reaches ready
    exact ⟨[], rfl, ih₂.effect (ih₁.effect reaches ready.calm) ready.calm⟩
  | @choose c l r d d₁ d₂ d₃ _ _ _ ih₁ ih₂ ih₃ =>
    intro g p a reaches ready
    have calm₂ := (ready.calm.label d.fresh).label d.label.fresh
    have tested := ih₁.branch reaches.label.label calm₂
      (List.forall_mem_singleton.mpr ((canGo_head g).grow [_]))
    have yes := ((ih₂.effect tested calm₂).jump (canGo_head g)).place [_]
    exact ⟨[], rfl, (ih₃.effect yes (ready.calm.label _)).place []⟩
  | branchKnown shared => cases shared
  | branch scalar unknown _ ih =>
    intro g p a reaches ready
    exact ih reaches ⟨ready.labels, ready.calm, nofun, nofun⟩
  | jumpConst =>
    intro g p a reaches ready
    refine ⟨[], rfl, reaches.jumpTo fun k inside => ready.labels k ?_⟩
    split at inside
    · exact List.mem_append_left _ inside
    · exact List.mem_append_right _ inside
  | jumpNot _ ih =>
    intro g p a reaches ready
    refine ⟨[], rfl, ih.branch reaches ready.calm fun l inside => ready.labels l ?_⟩
    exact List.perm_append_comm.mem_iff.mp inside
  | jumpRelation relational labelled _ _ ih₁ ih₂ =>
    intro g p a reaches ready
    obtain ⟨x, reaches⟩ := ih₁.value reaches ready.calm
    obtain ⟨y, reaches⟩ := ih₂.value reaches (ready.calm.grow [_])
    exact ⟨[], rfl, reaches.compare ready.calm _ labelled ready.labels⟩
  | @jumpAnd tag l r t f d d₁ d₂ _ _ ih₁ ih₂ =>
    intro g p a reaches ready
    have first := ih₁.branch reaches ready.calm
      (List.forall_mem_singleton.mpr (ready.labels f (List.mem_append_right _ List.mem_cons_self)))
    exact ⟨[], rfl, ih₂.branch first ready.calm ready.labels⟩
  | jumpAndOpen _ _ ih₁ ih₂ =>
    intro g p a reaches ready
    have first := ih₁.branch reaches.label (ready.calm.label _)
      (List.forall_mem_singleton.mpr (canGo_head g))
    have second := ih₂.branch first (ready.calm.label _)
      fun l inside => (ready.labels l inside).grow [_]
    exact ⟨[], rfl, second.place []⟩
  | @jumpOr tag l r t f d d₁ d₂ _ _ ih₁ ih₂ =>
    intro g p a reaches ready
    have first := ih₁.branch reaches ready.calm
      (List.forall_mem_singleton.mpr (ready.labels t (List.mem_append_left _ List.mem_cons_self)))
    exact ⟨[], rfl, ih₂.branch first ready.calm ready.labels⟩
  | jumpOrOpen _ _ ih₁ ih₂ =>
    intro g p a reaches ready
    have first := ih₁.branch reaches.label (ready.calm.label _)
      (List.forall_mem_singleton.mpr (canGo_head g))
    have second := ih₂.branch first (ready.calm.label _)
      fun l inside => (ready.labels l inside).grow [_]
    exact ⟨[], rfl, second.place []⟩
  | jumpComma _ _ ih₁ ih₂ =>
    intro g p a reaches ready
    exact ⟨[], rfl, ih₂.branch (ih₁.effect reaches ready.calm) ready.calm ready.labels⟩
  | jumpValue plain labelled _ ih =>
    intro g p a reaches ready
    obtain ⟨x, reaches⟩ := ih.value reaches ready.calm
    exact ⟨[], rfl, reaches.test ready.calm _ labelled ready.labels⟩
  | argsNil =>
    intro g p a reaches ready
    exact ⟨[], rfl, reaches⟩
  | @argsCons e es v bytes d d₁ d₂ _ _ ih₁ ih₂ =>
    intro g p a reaches ready
    obtain ⟨x, reaches⟩ := ih₁.value reaches ready.calm
    have pushed := (reaches.code (c := .arg v) rfl nofun (waits_one List.mem_cons_self) nofun).drop
      [_] ready.calm
    exact ih₂ pushed ⟨nofun, ready.calm, nofun, nofun⟩
  | declsNil =>
    intro g p a reaches ready
    exact ⟨[], rfl, reaches⟩
  | @declsPlain sym zeroFill ds d d₁ d₂ declared _ ih =>
    intro g p a reaches ready
    subst declared
    exact ih (reaches.declare ready.calm (fills_left ready.fill))
      ⟨nofun, ready.calm, nofun, fills_right ready.fill⟩
  | @declsInit sym e v zeroFill ds d d₁ d₂ d₃ declared _ _ ih₁ ih₂ =>
    intro g p a reaches ready
    subst declared
    obtain ⟨x, reaches⟩ := ih₁.value (reaches.declare ready.calm (fills_left ready.fill)) ready.calm
    exact ih₂ (reaches.store ready.calm _ _) ⟨nofun, ready.calm, nofun, fills_right ready.fill⟩
  | expr _ ih =>
    intro g p a reaches ready
    exact ⟨[], rfl, ih.effect reaches ready.calm⟩
  | «when» _ _ ih₁ ih₂ =>
    intro g p a reaches ready
    have tested := ih₁.branch reaches.label (ready.calm.label _)
      (List.forall_mem_singleton.mpr (canGo_head g))
    have body := ih₂.stmt tested ⟨fun l inside => (ready.labels l inside).grow [_],
      ready.calm.label _, ready.idle, ready.fill⟩
    exact ⟨[], rfl, body.place []⟩
  | @ifElse loops level c l r d d₁ d₂ d₃ _ _ _ ih₁ ih₂ ih₃ =>
    intro g p a reaches ready
    have calm₂ := (ready.calm.label d.fresh).label d.label.fresh
    have tested := ih₁.branch reaches.label.label calm₂
      (List.forall_mem_singleton.mpr ((canGo_head g).grow [_]))
    have arm := ih₂.stmt tested ⟨fun k inside => ((ready.labels k inside).grow [_]).grow [_], calm₂,
      ready.idle, fills_left ready.fill⟩
    have other := ih₃.stmt ((arm.jump (canGo_head g)).place [_])
      ⟨fun k inside => (ready.labels k inside).grow [_], ready.calm.label _, ready.idle,
        fills_right ready.fill⟩
    exact ⟨[], rfl, other.place []⟩
  | @«while» loops level c body d d₁ d₂ d₃ labels _ _ ih₁ ih₂ =>
    intro g p a reaches ready
    subst labels
    obtain rfl := ready.idle rfl
    obtain ⟨g', reaches, top, still, whole⟩ :=
      (reaches.label.label.label.jump ((canGo_head g).grow [_])).head [_, _]
    have calm := ready.calm.label d.label.fresh
    have labels : ∀ l ∈ Task.labels exit
        (.stmt (⟨d.label.fresh, d.label.label.fresh⟩ :: loops) level body),
        g'.CanGo ([(d.label.label.fresh, 0), (d.label.fresh, 0)] ++ a) l := by
      intro l inside
      simp only [Task.labels, List.flatMap_cons, List.mem_cons, List.mem_append, List.not_mem_nil,
        or_false] at inside
      rcases inside with rfl | (rfl | rfl) | outer
      · exact still _ ((ready.labels _ List.mem_cons_self).grow [_, _])
      · exact (canGo_head g').grow [_]
      · exact canGo_head g'
      · exact still _ ((ready.labels l (List.mem_cons_of_mem _ outer)).grow [_, _])
    have looped := ih₁.stmt reaches ⟨labels, calm.label d.label.label.fresh, ready.idle, ready.fill⟩
    have tested := ih₂.branch (looped.place [_]) (ready.calm.label d.label.label.fresh)
      (List.forall_mem_singleton.mpr (top _))
    exact ⟨[], rfl, whole _ _ _ (tested.place [])⟩
  | @block loops level decls body d d₁ d₂ _ _ ih₁ ih₂ =>
    intro g p a reaches ready
    have opened := reaches.code (c := .blockEnter (level + 1)) rfl nofun nofun nofun
    obtain ⟨_, rfl, reaches⟩ := ih₁ opened ⟨nofun, ready.calm, nofun, fills_left ready.fill⟩
    obtain ⟨_, rfl, reaches⟩ := ih₂ reaches
      ⟨ready.labels, ready.calm, ready.idle, fills_right ready.fill⟩
    exact ⟨[], rfl, reaches.code rfl nofun nofun nofun⟩
  | retNone =>
    intro g p a reaches ready
    exact ⟨[], rfl, reaches.ret none nofun (ready.labels _ List.mem_cons_self)⟩
  | @ret loops level e v d d₁ direct _ ih =>
    intro g p a reaches ready
    obtain ⟨x, reaches⟩ := ih.value reaches ready.calm
    have returned := reaches.ret (some v) (waits_one List.mem_cons_self)
      (ready.labels _ List.mem_cons_self)
    exact ⟨[], rfl, returned.drop [_] ready.calm⟩
  | @retStruct loops level e v out d d₁ d₂ hidden struct _ pointer ih =>
    intro g p a reaches ready
    subst pointer
    obtain ⟨x, reaches⟩ := ih.value reaches ready.calm
    have stored := ((reaches.load (ready.calm.grow [_]) out .pointer).operator [_, _] ready.calm
      (n := { op := .assign, ty := e.ty, left := some (d₁.addr out).next, right := some v }) nofun
      (waits_two List.mem_cons_self (List.mem_cons_of_mem _ List.mem_cons_self))).drop [_] ready.calm
    exact ⟨[], rfl, stored.ret none nofun (ready.labels _ List.mem_cons_self)⟩
  | «break» =>
    intro g p a reaches ready
    exact ⟨[], rfl, reaches.jump (ready.labels _ (by simp [Task.labels]))⟩
  | «continue» =>
    intro g p a reaches ready
    exact ⟨[], rfl, reaches.jump (ready.labels _ (by simp [Task.labels]))⟩
  | stmtsNil =>
    intro g p a reaches ready
    exact ⟨[], rfl, reaches⟩
  | stmtsCons _ _ ih₁ ih₂ =>
    intro g p a reaches ready
    have head := ih₁.stmt reaches ⟨ready.labels, ready.calm, ready.idle, fills_left ready.fill⟩
    exact ih₂ head ⟨ready.labels, ready.calm, ready.idle, fills_right ready.fill⟩

theorem Ledger.sound_empty (exit : Symbol) (fills : Bool) (symbols : SymbolTable) :
    Sound exit fills { draft := { symbols } } where
  numbered := ⟨rfl, by simp, by simp, by simp, by simp, by simp⟩
  labelled := ⟨by simp, by simp, List.nodup_nil, by simp, List.nodup_nil, by simp⟩
  enclosed := ⟨by simp, by simp, by simp, by simp, by simp⟩

theorem FunctionDef.lower_sound {d : FunctionDef} {t t' : SymbolTable} {f : LinearFunction}
    (ok : d.lower t = .ok f t') (unshared : d.Unshared) {fills : Bool}
    (fill : d.body.fills = true → fills = true) :
    ∃ g : Ledger, g.Sound f.exit fills ∧ g.draft.codes = f.codes.toList ∧
      g.draft.nodes = f.nodes.toList ∧ g.draft.symbols = t' ∧ g.ahead = [] := by
  obtain ⟨body, run, rfl, rfl⟩ := FunctionDef.lower_follows ok
  have fresh : Fresh (Task.stmt [] 0 d.body).numbers (Draft.opening t).done :=
    ⟨unshared, fun _ _ => rfl⟩
  have start : Reaches ⟨t.size⟩ fills { draft := { symbols := t.nextPass.2 } } _ _ _ := .start
  have opened := start.label.code (c := .frameEnter) rfl nofun nofun nofun
  obtain ⟨_, rfl, whole⟩ := (run.unshared fresh).1.assembles opened
    ⟨List.forall_mem_singleton.mpr (canGo_head _), List.forall_mem_singleton.mpr (Nat.le_refl 0),
      fun _ => rfl, fill⟩
  obtain ⟨g, steps, draft, -, ahead⟩ := (whole.place []).code
    (c := .frameExit) rfl nofun nofun nofun
  refine ⟨g, (sound_empty _ _ _).steps steps, ?_, ?_, ?_, ahead⟩
  · rw [draft]; rfl
  · rw [draft]; rfl
  · rw [draft]; rfl

end CBackend

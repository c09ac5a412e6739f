import Mathlib.Data.List.Forall2
import Mathlib.Data.List.Nodup
import CBackend.Proofs.Lowering.Growth
import CBackend.Proofs.Lowering.Structure

/-!
Side effects are lowered once. A node of the tree may be lowered again and again, as a value, for its
effects and as a branch, but a call or an assignment is one operator of the code, at the first time.
All other stores have an origin that can be told: a temporary is stored to at the end of both arms of
a choice, a declared variable with its initial value, and a struct result where it is returned.
-/

namespace CBackend

inductive Origin where
  | node (e : Expr)
  | temporary (sym : Symbol)
  | initial (sym : Symbol)
  | result (out : Symbol)
  | plain

namespace Origin

def node? : Origin → Option Expr
  | node e => some e
  | _ => none

def temporary? : Origin → Option Symbol
  | temporary sym => some sym
  | _ => none

def isStore : Origin → Bool
  | initial _ | result _ => true
  | _ => false

end Origin

def Expr.isEffect : Expr → Bool
  | .call .. | .assign .. => true
  | _ => false

def Decl.stores (d : Decl) : List Origin :=
  match d.init with
  | some _ => [.initial d.sym]
  | none => []

mutual

/-- The stores that a statement asks for besides its expressions, in order. -/
def Stmt.stores (output : Option Symbol) : Stmt → List Origin
  | .when _ body | .while _ body => body.stores output
  | .ifElse _ a b => a.stores output ++ b.stores output
  | .block decls body => decls.flatMap Decl.stores ++ Stmt.allStores output body
  | .ret (some e) => if e.ty.isStruct then output.toList.map .result else []
  | .expr _ | .ret none | .break | .continue => []

def Stmt.allStores (output : Option Symbol) : List Stmt → List Origin
  | [] => []
  | s :: ss => s.stores output ++ Stmt.allStores output ss

end

namespace LinNode

def StoresTo (nodes : List LinNode) (n : LinNode) (sym : Symbol) : Prop :=
  n.op = .assign ∧ ∃ x, n.left = some x ∧
    nodes[x.index]? = some { op := .addr, ty := .pointer, sym := some sym }

/-- The operator is what its origin makes of it, where `done` has the values of the nodes. -/
def Stems (done : List (Nat × LinId)) (nodes : List LinNode) (n : LinNode) : Origin → Prop
  | .node (.call tag callee _) => n.op = .call ∧
      n.ty = (if tag.ty.isStruct then .void else tag.ty) ∧
      ∃ f, n.left = some f ∧ done.lookup callee.number = some f
  | .node (.assign tag a v) => n.op = .assign ∧ n.ty = tag.ty ∧
      ∃ x y, n.left = some x ∧ n.right = some y ∧ done.lookup a.number = some x ∧
        done.lookup v.number = some y
  | .node _ => False
  | .temporary sym | .initial sym => n.StoresTo nodes sym
  | .result out => n.op = .assign ∧ ∃ x y, n.left = some x ∧
      nodes[x.index]? = some { op := .load, ty := .pointer, left := some y } ∧
      nodes[y.index]? = some { op := .addr, ty := .pointer, sym := some out }
  | .plain => n.op ≠ .call ∧ n.op ≠ .assign

variable {done done' : List (Nat × LinId)} {nodes nodes' : List LinNode} {n : LinNode} {o : Origin}

theorem Stems.grow (stems : n.Stems done nodes o)
    (stable : ∀ {k id}, done.lookup k = some id → done'.lookup k = some id)
    (more : nodes <+: nodes') : n.Stems done' nodes' o := by
  match o with
  | .node (.call ..) =>
    obtain ⟨op, ty, f, left, known⟩ := stems
    exact ⟨op, ty, f, left, stable known⟩
  | .node (.assign ..) =>
    obtain ⟨op, ty, x, y, left, right, target, value⟩ := stems
    exact ⟨op, ty, x, y, left, right, stable target, stable value⟩
  | .temporary _ | .initial _ =>
    obtain ⟨op, x, left, found⟩ := stems
    exact ⟨op, x, left, getElem?_of_grown more found⟩
  | .result _ =>
    obtain ⟨op, x, y, left, load, address⟩ := stems
    exact ⟨op, x, y, left, getElem?_of_grown more load, getElem?_of_grown more address⟩
  | .plain => exact stems
  | .node (.const ..) | .node (.addr ..) | .node (.deref ..) | .node (.unary ..)
  | .node (.binary ..) | .node (.cond ..) | .node (.cast ..) | .node (.comma ..) => exact stems

end LinNode

namespace Draft

def Met (d : Draft) (e : Expr) : Prop := ∃ id, d.done.lookup e.number = some id

variable {tree : List Expr} {d d' : Draft} {origins : List Origin} {e : Expr} {id : LinId}

theorem met_settle {x : Expr} : (d.settle e.number id).Met x ↔ x.number = e.number ∨ d.Met x := by
  simp only [Met, lookup_settle]
  by_cases same : x.number = e.number
  · simp [same]
  · simp [same]

/-- Every operator of the draft has its origin. The calls and assignments among the origins are those
whose values are known, each once; below a node whose value is known there are no others. -/
structure Traced (tree : List Expr) (d : Draft) (origins : List Origin) : Prop where
  stems : List.Forall₂ (LinNode.Stems d.done d.nodes) d.nodes origins
  within : ∀ e ∈ origins.filterMap Origin.node?, e ∈ tree
  distinct : (origins.filterMap Origin.node?).Nodup
  met : ∀ e ∈ tree, e.isEffect = true → (d.Met e ↔ e ∈ origins.filterMap Origin.node?)
  deep : ∀ e ∈ tree, d.Met e → ∀ x ∈ e.nodes, x.isEffect = true → d.Met x

theorem Traced.of_eq (traced : d.Traced tree origins) (done : d'.done = d.done)
    (operators : d'.nodes = d.nodes) : d'.Traced tree origins := by
  obtain ⟨_, _, _, _⟩ := d
  obtain ⟨_, _, _, _⟩ := d'
  subst done operators
  exact ⟨traced.stems, traced.within, traced.distinct, traced.met, traced.deep⟩

theorem Traced.emit (traced : d.Traced tree origins) {n : LinNode} {o : Origin}
    (stems : n.Stems d.done d.nodes o) (other : o.node? = none) :
    (d.emit n).Traced tree (origins ++ [o]) := by
  have same : (origins ++ [o]).filterMap Origin.node? = origins.filterMap Origin.node? := by
    simp [other]
  refine ⟨?_, same ▸ traced.within, same ▸ traced.distinct, same ▸ traced.met, traced.deep⟩
  refine List.rel_append (traced.stems.imp fun m o' old => ?_) (.cons ?_ .nil)
  · exact LinNode.Stems.grow old (fun known => known) (List.prefix_append _ _)
  · exact stems.grow (fun known => known) (List.prefix_append _ _)

theorem Traced.deep_settle (traced : d.Traced tree origins) (same : SameNodes tree)
    (within : e ∈ tree) (inner : ∀ x ∈ e.inner, x.isEffect = true → d.Met x) :
    ∀ y ∈ tree, (d.settle e.number id).Met y → ∀ x ∈ y.nodes, x.isEffect = true →
      (d.settle e.number id).Met x := by
  intro y inside known x below effect
  rw [met_settle] at known ⊢
  rcases known with equal | known
  · obtain rfl := same y inside e within equal
    rw [Expr.nodes_eq_cons, List.mem_cons] at below
    rcases below with rfl | below
    · exact .inl rfl
    · exact .inr (inner x below effect)
  · exact .inr (traced.deep y inside known x below effect)

theorem Traced.settle (traced : d.Traced tree origins) (same : SameNodes tree)
    (within : e ∈ tree) (unknown : d.done.lookup e.number = none) (plain : e.isEffect = false)
    (inner : ∀ x ∈ e.inner, x.isEffect = true → d.Met x) :
    (d.settle e.number id).Traced tree origins := by
  refine ⟨?_, traced.within, traced.distinct, ?_, traced.deep_settle same within inner⟩
  · exact traced.stems.imp fun n o old =>
      LinNode.Stems.grow old (stable_settle unknown) List.prefix_rfl
  · intro x inside effect
    rw [met_settle, ← traced.met x inside effect, or_iff_right]
    intro equal
    obtain rfl := same x inside e within equal
    rw [plain] at effect
    cases effect

theorem Traced.effect (traced : d.Traced tree origins) (same : SameNodes tree)
    (within : e ∈ tree) (unknown : d.done.lookup e.number = none) (effect : e.isEffect = true)
    (inner : ∀ x ∈ e.inner, x.isEffect = true → d.Met x) {n : LinNode}
    (stems : n.Stems d.done d.nodes (.node e)) :
    ((d.emit n).settle e.number id).Traced tree (origins ++ [.node e]) := by
  have nodes : (origins ++ [Origin.node e]).filterMap Origin.node? =
      origins.filterMap Origin.node? ++ [e] := by simp [Origin.node?]
  have fresh : e ∉ origins.filterMap Origin.node? := by
    rw [← traced.met e within effect]
    rintro ⟨id, known⟩
    rw [unknown] at known
    cases known
  refine ⟨?_, ?_, ?_, ?_, traced.deep_settle same within inner⟩
  · refine List.rel_append (traced.stems.imp fun m o' old => ?_) (.cons ?_ .nil)
    · exact LinNode.Stems.grow old (stable_settle unknown) (List.prefix_append _ _)
    · exact stems.grow (stable_settle unknown) (List.prefix_append _ _)
  · rw [nodes]
    exact List.forall_mem_append.mpr ⟨traced.within, List.forall_mem_singleton.mpr within⟩
  · rw [nodes]
    exact traced.distinct.append (List.nodup_singleton e) (by simpa using fresh)
  · intro x inside effect
    rw [nodes, List.mem_append, ← traced.met x inside effect, List.mem_singleton, or_comm]
    refine met_settle.trans (or_congr_left ⟨fun equal => same x inside e within equal, ?_⟩)
    rintro rfl
    rfl

/-- From one draft to another every call and assignment among `nodes` has been evaluated, the stores
that statements ask for are `stores`, `own` are stored to once more, and every other temporary is new
and stored to twice. -/
structure Traces (tree nodes : List Expr) (stores : List Origin) (own : List Symbol)
    (d d' : Draft) : Prop where
  stable : ∀ {n id}, d.done.lookup n = some id → d'.done.lookup n = some id
  symbols : d.symbols.size ≤ d'.symbols.size
  trace : ∀ {origins}, d.Traced tree origins →
    ∃ (more : List Origin) (temps : List Symbol), d'.Traced tree (origins ++ more) ∧
    (∀ x ∈ nodes, x.isEffect = true → d'.Met x) ∧ more.filter Origin.isStore = stores ∧
    temps.Nodup ∧ (∀ s ∈ temps, d.symbols.size ≤ s.index ∧ s.index < d'.symbols.size) ∧
    ∀ s, (more.filterMap Origin.temporary?).count s = own.count s + 2 * temps.count s

namespace Traces

variable {nodes nodes' : List Expr} {stores stores' : List Origin} {own own' : List Symbol}
  {d₁ d₂ : Draft} {n : LinNode}

theorem refl (d : Draft) : Traces tree [] [] [] d d :=
  ⟨fun known => known, Nat.le_refl _, fun {origins} traced => ⟨[], [], by simpa using traced, by simp, rfl,
    List.nodup_nil, nofun, by simp⟩⟩

theorem mono (traces : Traces tree nodes stores own d d₁)
    (fewer : ∀ x ∈ nodes', x.isEffect = true → x ∈ nodes) : Traces tree nodes' stores own d d₁ := by
  refine ⟨traces.stable, traces.symbols, fun traced => ?_⟩
  obtain ⟨more, temps, traced, met, rest⟩ := traces.trace traced
  exact ⟨more, temps, traced, fun x inside effect => met x (fewer x inside effect) effect, rest⟩

theorem trans (first : Traces tree nodes stores own d d₁)
    (second : Traces tree nodes' stores' own' d₁ d₂) :
    Traces tree (nodes ++ nodes') (stores ++ stores') (own ++ own') d d₂ := by
  refine ⟨fun known => second.stable (first.stable known), Nat.le_trans first.symbols second.symbols,
    fun traced => ?_⟩
  obtain ⟨more, temps, traced, met, asked, distinct, range, count⟩ := first.trace traced
  obtain ⟨more', temps', traced, met', asked', distinct', range', count'⟩ := second.trace traced
  refine ⟨more ++ more', temps ++ temps', ?_, ?_, ?_, ?_, ?_, fun s => ?_⟩
  · rw [← List.append_assoc]
    exact traced
  · refine List.forall_mem_append.mpr ⟨fun x inside effect => ?_, met'⟩
    obtain ⟨id, known⟩ := met x inside effect
    exact ⟨id, second.stable known⟩
  · rw [List.filter_append, asked, asked']
  · refine distinct.append distinct' fun s old new => ?_
    have := (range s old).2
    have := (range' s new).1
    omega
  · have := first.symbols
    have := second.symbols
    refine List.forall_mem_append.mpr ⟨fun s inside => ?_, fun s inside => ?_⟩
    · have := range s inside
      omega
    · have := range' s inside
      omega
  · rw [List.filterMap_append, List.count_append, List.count_append, List.count_append, count,
      count']
    omega

theorem quiet (traces : Traces tree nodes stores own d d₁) (done : d₂.done = d₁.done)
    (operators : d₂.nodes = d₁.nodes) (symbols : d₁.symbols.size ≤ d₂.symbols.size) :
    Traces tree nodes stores own d d₂ := by
  refine ⟨fun known => done ▸ traces.stable known, Nat.le_trans traces.symbols symbols, fun traced => ?_⟩
  obtain ⟨more, temps, traced, met, asked, distinct, range, count⟩ := traces.trace traced
  refine ⟨more, temps, traced.of_eq done operators, fun x inside effect => ?_, asked, distinct,
    fun s inside => ?_, count⟩
  · obtain ⟨id, known⟩ := met x inside effect
    exact ⟨id, done ▸ known⟩
  · have := range s inside
    omega

theorem code (traces : Traces tree nodes stores own d d₁) (c : Code) :
    Traces tree nodes stores own d (d₁.code c) := traces.quiet rfl rfl (Nat.le_refl _)

theorem place (traces : Traces tree nodes stores own d d₁) (l : Symbol) :
    Traces tree nodes stores own d (d₁.place l) := traces.code _

theorem label (traces : Traces tree nodes stores own d d₁) :
    Traces tree nodes stores own d d₁.label :=
  traces.quiet rfl rfl ((SymbolTable.grows_push ..).size_le)

theorem temp (traces : Traces tree nodes stores own d d₁) (ty : CType) :
    Traces tree nodes stores own d (d₁.temp ty) :=
  traces.quiet rfl rfl ((SymbolTable.grows_temp _ ty).size_le)

theorem emit (traces : Traces tree nodes stores own d d₁) {o : Origin} (other : o.node? = none)
    (stems : n.Stems d₁.done d₁.nodes o) :
    Traces tree nodes (stores ++ [o].filter Origin.isStore)
      (own ++ [o].filterMap Origin.temporary?) d (d₁.emit n) := by
  refine ⟨traces.stable, traces.symbols, fun traced => ?_⟩
  obtain ⟨more, temps, traced, met, asked, distinct, range, count⟩ := traces.trace traced
  refine ⟨more ++ [o], temps, ?_, met, ?_, distinct, range, fun s => ?_⟩
  · rw [← List.append_assoc]
    exact traced.emit stems other
  · rw [List.filter_append, asked]
  · rw [List.filterMap_append, List.count_append, List.count_append, count]
    omega

theorem operator (traces : Traces tree nodes stores own d d₁) (call : n.op ≠ .call)
    (assign : n.op ≠ .assign) : Traces tree nodes stores own d (d₁.emit n) := by
  have emitted := traces.emit (n := n) (o := .plain) rfl ⟨call, assign⟩
  rwa [List.filter_cons_of_neg Bool.false_ne_true, List.filterMap_cons_none rfl, List.filter_nil,
    List.filterMap_nil, List.append_nil, List.append_nil] at emitted

theorem addr (traces : Traces tree nodes stores own d d₁) (sym : Symbol) :
    Traces tree nodes stores own d (d₁.addr sym) := traces.operator nofun nofun

theorem constant (traces : Traces tree nodes stores own d d₁)
    {intern : SymbolTable → Symbol × SymbolTable}
    (grows : d₁.symbols.Grows (intern d₁.symbols).2) (ty : CType) :
    Traces tree nodes stores own d (d₁.constant intern ty) := by
  have interned : Traces tree nodes stores own d { d₁ with symbols := (intern d₁.symbols).2 } :=
    traces.quiet rfl rfl grows.size_le
  exact interned.operator nofun nofun

theorem one (traces : Traces tree nodes stores own d d₁) : Traces tree nodes stores own d d₁.one :=
  traces.constant (SymbolTable.grows_intern ..) _

theorem zero (traces : Traces tree nodes stores own d d₁) (ty : CType) :
    Traces tree nodes stores own d (d₁.zero ty) := by
  refine traces.constant ?_ ty
  split
  · exact SymbolTable.grows_intern ..
  · exact SymbolTable.grows_intern ..

theorem load (traces : Traces tree nodes stores own d d₁) (sym : Symbol) (ty : CType) :
    Traces tree nodes stores own d (d₁.load sym ty) := (traces.addr sym).operator nofun nofun

theorem storesTo (d : Draft) (sym : Symbol) (ty : CType) (v : LinId) :
    LinNode.StoresTo (d.addr sym).nodes { op := .assign, ty, left := some d.next, right := some v }
      sym :=
  ⟨rfl, d.next, rfl, by simp [Draft.addr, Draft.emit, next]⟩

theorem arm (traces : Traces tree nodes stores own d d₁) (sym : Symbol) (ty : CType) (v : LinId) :
    Traces tree nodes stores (own ++ [sym]) d (d₁.store sym ty v) := by
  have stored := (traces.addr sym).emit (o := .temporary sym) rfl (storesTo d₁ sym ty v)
  rwa [List.filter_cons_of_neg Bool.false_ne_true, List.filter_nil, List.append_nil] at stored

theorem initial (traces : Traces tree nodes stores own d d₁) (sym : Symbol) (ty : CType)
    (v : LinId) : Traces tree nodes (stores ++ [.initial sym]) own d (d₁.store sym ty v) := by
  have stored := (traces.addr sym).emit (o := .initial sym) rfl (storesTo d₁ sym ty v)
  rwa [List.filterMap_cons_none rfl, List.filterMap_nil, List.append_nil] at stored

theorem jumpTo (traces : Traces tree nodes stores own d d₁) (l : Option Symbol) :
    Traces tree nodes stores own d (d₁.jumpTo l) := by
  cases l with
  | none => exact traces
  | some l => exact traces.code _

theorem compare (traces : Traces tree nodes stores own d d₁) (cond : Cond) (l r : LinId)
    (t f : Option Symbol) : Traces tree nodes stores own d (d₁.compare cond l r t f) := by
  have compared (cond : Cond) : Traces tree nodes stores own d (d₁.comparison cond l r) :=
    traces.operator nofun nofun
  match t, f with
  | some t, some f => exact ((compared cond).code _).code _
  | some t, none => exact (compared cond).code _
  | none, some f => exact (compared cond.negate).code _
  | none, none => exact traces

theorem test (traces : Traces tree nodes stores own d d₁) (ty : CType) (v : LinId)
    (t f : Option Symbol) : Traces tree nodes stores own d (d₁.test ty v t f) :=
  (traces.zero ty).compare _ _ _ _ _

theorem declare (traces : Traces tree nodes stores own d d₁) (sym : Symbol) (zeroFill : Bool) :
    Traces tree nodes stores own d
      (if zeroFill then (d₁.code (.declare sym)).clear sym else d₁.code (.declare sym)) := by
  split
  · exact ((traces.code _).addr sym).code _
  · exact traces.code _

theorem known (within : e ∈ tree) (known : d.done.lookup e.number = some id) :
    Traces tree e.nodes [] [] d d :=
  ⟨fun known => known, Nat.le_refl _, fun {origins} traced => ⟨[], [], by simpa using traced,
    traced.deep e within ⟨id, known⟩, rfl, List.nodup_nil, nofun, by simp⟩⟩

theorem parent (traces : Traces tree nodes stores own d d₁) (plain : e.isEffect = false)
    (inner : e.inner ⊆ nodes) : Traces tree e.nodes stores own d d₁ := by
  refine traces.mono fun x inside effect => ?_
  rw [Expr.nodes_eq_cons, List.mem_cons] at inside
  rcases inside with rfl | inside
  · rw [plain] at effect
    cases effect
  · exact inner inside

theorem settle (traces : Traces tree nodes stores own d d₁) (same : SameNodes tree)
    (within : e ∈ tree) (unknown : d₁.done.lookup e.number = none) (plain : e.isEffect = false)
    (inner : e.inner ⊆ nodes) : Traces tree e.nodes stores own d (d₁.settle e.number id) := by
  have traces := traces.parent plain inner
  refine ⟨fun known => stable_settle unknown (traces.stable known), traces.symbols,
    fun traced => ?_⟩
  obtain ⟨more, temps, traced, met, rest⟩ := traces.trace traced
  refine ⟨more, temps, traced.settle same within unknown plain fun x inside effect => ?_,
    fun x inside effect => met_settle.mpr (.inr (met x inside effect)), rest⟩
  refine met x ?_ effect
  rw [Expr.nodes_eq_cons]
  exact List.mem_cons_of_mem e inside

theorem compute (traces : Traces tree nodes stores own d d₁) (same : SameNodes tree)
    (within : e.nodes ⊆ tree) (unknown : d₁.done.lookup e.number = none)
    (plain : e.isEffect = false) (inner : e.inner ⊆ nodes) (call : n.op ≠ .call)
    (assign : n.op ≠ .assign) : Traces tree e.nodes stores own d ((d₁.emit n).settle e.number id) :=
  (traces.operator call assign).settle same (within e.self_mem_nodes) unknown plain inner

theorem effect (traces : Traces tree nodes stores own d d₁) (id : LinId) (same : SameNodes tree)
    (within : e ∈ tree) (unknown : d₁.done.lookup e.number = none) (effect : e.isEffect = true)
    (inner : e.inner ⊆ nodes) (stems : n.Stems d₁.done d₁.nodes (.node e)) :
    Traces tree e.nodes stores own d ((d₁.emit n).settle e.number id) := by
  refine ⟨fun known => stable_settle (d := d₁) unknown (traces.stable known), traces.symbols,
    fun traced => ?_⟩
  obtain ⟨more, temps, traced, met, asked, distinct, range, count⟩ := traces.trace traced
  have below (x : Expr) (inside : x ∈ e.inner) (effect : x.isEffect = true) : d₁.Met x :=
    met x (inner inside) effect
  refine ⟨more ++ [.node e], temps, ?_, fun x inside effectful => ?_, ?_, distinct, range,
    fun s => ?_⟩
  · rw [← List.append_assoc]
    exact traced.effect same within unknown effect below stems
  · rw [Expr.nodes_eq_cons, List.mem_cons] at inside
    rcases inside with rfl | inside
    · exact met_settle.mpr (.inl rfl)
    · exact met_settle.mpr (.inr (below x inside effectful))
  · rw [List.filter_append, asked]
    exact List.append_nil _
  · rw [List.filterMap_append, List.count_append, count]
    rfl

theorem size_temp (d : Draft) (ty : CType) : (d.temp ty).symbols.size = d.symbols.size + 1 :=
  SymbolTable.size_push ..

theorem choice (traces : Traces tree nodes stores [d.fresh, d.fresh] d' d₁)
    (declared : d'.symbols.size = d.symbols.size + 1) (done : d'.done = d.done)
    (operators : d'.nodes = d.nodes) : Traces tree nodes stores [] d d₁ := by
  have later := traces.symbols
  refine ⟨fun known => traces.stable (done ▸ known), by omega, fun traced => ?_⟩
  obtain ⟨more, temps, traced, known, asked, distinct, range, count⟩ :=
    traces.trace (traced.of_eq done operators)
  have size : d.fresh.index = d.symbols.size := rfl
  refine ⟨more, d.fresh :: temps, traced, known, asked, List.nodup_cons.mpr ⟨?_, distinct⟩, ?_,
    fun s => ?_⟩
  · intro inside
    have := (range _ inside).1
    omega
  · refine List.forall_mem_cons.mpr ⟨by omega, fun s inside => ?_⟩
    have := range s inside
    omega
  · rw [count, List.count_cons, List.count_cons, List.count_cons, List.count_nil]
    omega

end Traces

end Draft

/-- The stores that a part of a function asks for besides its expressions. -/
def Task.stores (output : Option Symbol) : Task → List Origin
  | .decls ds => ds.flatMap Decl.stores
  | .stmt _ _ s => s.stores output
  | .stmts _ _ ss => Stmt.allStores output ss
  | _ => []

/-- What lowering a part evaluates. A value that is computed for the first time is looked at after it
has been noted. -/
def Task.Traces (output : Option Symbol) (tree : List Expr) (task : Task) (d d' : Draft) : Prop :=
  task.nodes ⊆ tree → match task with
  | .compute e id => d'.done.lookup e.number = none →
      Draft.Traces tree e.nodes [] [] d (d'.settle e.number id)
  | task => Draft.Traces tree task.nodes (task.stores output) [] d d'

namespace Task.Traces

variable {output t f : Option Symbol} {tree : List Expr} {d d' : Draft} {e k : Expr} {id v : LinId}

theorem value (traces : Traces output tree (.value k v) d d') (within : e.nodes ⊆ tree)
    (kid : k ∈ e.kids) : Draft.Traces tree k.nodes [] [] d d' :=
  traces (Expr.within_kid within kid)

theorem effect (traces : Traces output tree (.effect k) d d') (within : e.nodes ⊆ tree)
    (kid : k ∈ e.kids) : Draft.Traces tree k.nodes [] [] d d' :=
  traces (Expr.within_kid within kid)

theorem branch (traces : Traces output tree (.branch k t f) d d') (within : e.nodes ⊆ tree)
    (kid : k ∈ e.kids) : Draft.Traces tree k.nodes [] [] d d' :=
  traces (Expr.within_kid within kid)

theorem args {es : List Expr} {bytes : Nat} {tag : NodeTag} {callee : Expr}
    (traces : Traces output tree (.args es.reverse bytes) d d')
    (within : (Expr.call tag callee es).nodes ⊆ tree) :
    Draft.Traces tree (Expr.allNodes es.reverse) [] [] d d' :=
  traces (Expr.within_args within)

end Task.Traces

theorem Expr.inner_subset_nodes (e : Expr) : e.inner ⊆ e.nodes := by
  rw [nodes_eq_cons]
  exact List.subset_cons_self e e.inner

theorem Expr.inner_call_subset (tag : NodeTag) (callee : Expr) (args : List Expr) :
    (Expr.call tag callee args).inner ⊆ allNodes args.reverse ++ callee.nodes := by
  intro x inside
  simpa [inner, kids, allNodes_eq_flatMap, or_comm] using inside

theorem UnaryOp.arith?_ne_assign {op : UnaryOp} {o : Op} (arith : op.arith? = some o) :
    o ≠ .assign := by
  cases op <;> cases arith <;> nofun

theorem BinaryOp.arith?_ne_assign {op : BinaryOp} {o : Op} (arith : op.arith? = some o) :
    o ≠ .assign := by
  cases op <;> cases arith <;> nofun

theorem Lowers.traces {output : Option Symbol} {sharing : Bool} {tree : List Expr} {task : Task}
    {d d' : Draft} (run : Lowers output sharing task d d') (same : SameNodes tree) :
    task.Traces output tree d d' := by
  -- A call or an assignment is an operator of its own only where its value is computed, and that
  -- happens only while the value is unknown.
  induction run with
  | reuse _ known | effectKnown _ known =>
    intro within
    exact .known (within (Expr.self_mem_nodes _)) known
  | first unknown run ih =>
    intro within
    exact ih within (run.compute_unknown same within unknown)
  | @const tag sym d | @addr tag sym d =>
    intro within unknown
    exact (Draft.Traces.refl d).compute same within unknown rfl (List.Subset.refl _) (by simp) (by simp)
  | deref _ ih =>
    intro within unknown
    have traces := ih.value within List.mem_cons_self
    exact traces.compute same within unknown rfl (by simp [Expr.inner, Expr.kids]) (by simp) (by simp)
  | unary arith _ ih =>
    intro within unknown
    have traces := ih.value within List.mem_cons_self
    exact traces.compute same within unknown rfl (by simp [Expr.inner, Expr.kids])
      (UnaryOp.arith?_ne_call arith).1 (UnaryOp.arith?_ne_assign arith)
  | @not tag x v d d₁ _ ih =>
    intro within unknown
    have traces := (ih.value within List.mem_cons_self).zero x.ty
    exact traces.compute same within unknown rfl (by simp [Expr.inner, Expr.kids]) (by simp) (by simp)
  | binary arith _ _ ih₁ ih₂ =>
    intro within unknown
    have traces := (ih₁.value within List.mem_cons_self).trans
      (ih₂.value within (by simp [Expr.kids]))
    exact traces.compute same within unknown rfl (by simp [Expr.inner, Expr.kids])
      (BinaryOp.arith?_ne_call arith) (BinaryOp.arith?_ne_assign arith)
  | relation _ _ _ ih₁ ih₂ =>
    intro within unknown
    have traces := (ih₁.value within List.mem_cons_self).trans
      (ih₂.value within (by simp [Expr.kids]))
    exact traces.compute same within unknown rfl (by simp [Expr.inner, Expr.kids]) (by simp) (by simp)
  | @truth tag op a b d d₁ d₂ d₃ d₄ _ declared _ yes no ih =>
    intro within unknown
    subst declared yes no
    have start := ((Draft.Traces.refl (d.temp .int)).label.label).trans (ih within)
    have arm := ((start.one.arm d.fresh .int d₂.next).code (.jump (d.temp .int).label.fresh)).place
      (d.temp .int).fresh
    -- Each of the two arms ends with a store to the temporary.
    have other (v : LinId) := ((arm.zero .int).arm d.fresh .int v).place (d.temp .int).label.fresh
    have traces (v : LinId) := Draft.Traces.choice (other v) (Draft.Traces.size_temp _ _) rfl rfl
    exact ((traces _).load d.fresh .int).settle same (within (Expr.self_mem_nodes _)) unknown rfl
      (Expr.inner_subset_nodes _)
  | assign _ address value ih₁ ih₂ =>
    intro within unknown
    have traces := (ih₁.value within List.mem_cons_self).trans
      (ih₂.value within (by simp [Expr.kids]))
    exact traces.effect _ same (within (Expr.self_mem_nodes _)) unknown rfl
      (by simp [Expr.inner, Expr.kids])
      ⟨rfl, rfl, _, _, rfl, rfl, value.stable address.value_known, value.value_known⟩
  | @assignNarrow tag a v x y d d₁ d₂ d₃ _ address value stored ih₁ ih₂ =>
    intro within unknown
    subst stored
    have traces := (ih₁.value within List.mem_cons_self).trans
      (ih₂.value within (by simp [Expr.kids]))
    let store : LinNode := { op := .assign, ty := tag.ty, left := some x, right := some y }
    have stored (id : LinId) := traces.effect (n := store) id same (within (Expr.self_mem_nodes _)) unknown rfl
      (by simp [Expr.inner, Expr.kids])
      ⟨rfl, rfl, x, y, rfl, rfl, value.stable address.value_known, value.value_known⟩
    exact (stored _).operator (n := { op := .cvt, ty := tag.ty, left := some y }) (by simp) (by simp)
  | condVoid _ _ ih =>
    intro within unknown
    have traces := (ih (List.cons_subset.mp within).2).zero .int
    exact traces.settle same (within (Expr.self_mem_nodes _)) unknown rfl
      (by simp [Expr.inner, Expr.kids, Task.nodes])
  | @cond tag c a b v w d d₁ d₂ d₃ d₄ d₅ d₆ _ declared _ _ yes _ no ih₁ ih₂ ih₃ =>
    intro within unknown
    subst declared yes no
    have test := ((Draft.Traces.refl (d.temp tag.ty)).label.label).trans
      (ih₁.branch within List.mem_cons_self)
    have arm := (((test.trans (ih₂.value within (by simp [Expr.kids]))).arm d.fresh tag.ty v).code
      (.jump (d.temp tag.ty).label.fresh)).place (d.temp tag.ty).fresh
    have other := ((arm.trans (ih₃.value within (by simp [Expr.kids]))).arm d.fresh tag.ty w).place
      (d.temp tag.ty).label.fresh
    have traces := Draft.Traces.choice other (Draft.Traces.size_temp _ _) rfl rfl
    exact (traces.load d.fresh tag.ty).settle same (within (Expr.self_mem_nodes _)) unknown rfl
      (by simp [Expr.inner, Expr.kids])
  | call scalar pushed target ih₁ ih₂ =>
    intro within unknown
    have traces := (ih₁.args within).trans (ih₂.value within List.mem_cons_self)
    exact traces.effect _ same (within (Expr.self_mem_nodes _)) unknown rfl
      (Expr.inner_call_subset _ _ _) ⟨rfl, by simp [scalar], _, rfl, target.value_known⟩
  | @callStruct tag callee args f bytes d d₁ d₂ d₃ d₄ struct declared pushed target called ih₁ ih₂ =>
    intro within unknown
    subst declared called
    have pushes := (((Draft.Traces.refl d).temp tag.ty).trans (ih₁.args within)).addr d.fresh
    have traces := (pushes.code (.arg d₂.next)).trans (ih₂.value within List.mem_cons_self)
    let call : LinNode := { op := .call, ty := .void, left := some f,
                            aux := ((bytes + roundToSlot CType.pointer.size : Nat) : Int) }
    have called (id : LinId) := traces.effect (n := call) id same (within (Expr.self_mem_nodes _)) unknown rfl
      (Expr.inner_call_subset _ _ _) ⟨rfl, by simp [struct, call], f, rfl, target.value_known⟩
    exact (called _).load d.fresh tag.ty
  | castKeep _ _ ih =>
    intro within unknown
    have traces := ih.value within List.mem_cons_self
    exact traces.settle same (within (Expr.self_mem_nodes _)) unknown rfl
      (by simp [Expr.inner, Expr.kids])
  | cast _ _ ih =>
    intro within unknown
    have traces := ih.value within List.mem_cons_self
    exact traces.compute same within unknown rfl (by simp [Expr.inner, Expr.kids]) (by simp) (by simp)
  | comma _ _ ih₁ ih₂ =>
    intro within unknown
    have traces := (ih₁.effect within List.mem_cons_self).trans
      (ih₂.value within (by simp [Expr.kids]))
    exact traces.settle same (within (Expr.self_mem_nodes _)) unknown rfl
      (by simp [Expr.inner, Expr.kids])
  | effectValue _ _ ih =>
    intro within
    exact ih within
  | @effectAnd tag a b d d₁ d₂ _ _ _ ih₁ ih₂ | @effectOr tag a b d d₁ d₂ _ _ _ ih₁ ih₂ =>
    intro within
    have first := ((Draft.Traces.refl d).label).trans (ih₁.branch within List.mem_cons_self)
    have traces := first.trans (ih₂.effect within (by simp [Expr.kids]))
    exact (traces.place d.fresh).parent rfl (by simp [Expr.inner, Expr.kids])
  | effectCond _ _ ih =>
    intro within
    have traces := ih (List.cons_subset.mp within).2
    exact traces.parent rfl (by simp [Expr.inner, Expr.kids, Task.nodes])
  | effectComma _ _ ih₁ ih₂ =>
    intro within
    have traces := (ih₁.effect within List.mem_cons_self).trans
      (ih₂.effect within (by simp [Expr.kids]))
    exact traces.parent rfl (by simp [Expr.inner, Expr.kids])
  | @choose c a b d d₁ d₂ d₃ _ _ _ ih₁ ih₂ ih₃ =>
    intro within
    obtain ⟨test, within⟩ := List.append_subset.mp within
    obtain ⟨arm, other⟩ := List.append_subset.mp within
    have first := ((Draft.Traces.refl d).label.label).trans (ih₁ test)
    have second := ((first.trans (ih₂ arm)).code (.jump d.label.fresh)).place d.fresh
    exact ((second.trans (ih₃ other)).place d.label.fresh).mono (by simp +contextual [Task.nodes])
  | branchKnown _ _ _ known =>
    intro within
    exact (Draft.Traces.known (within (Expr.self_mem_nodes _)) known).test _ _ _ _
  | branch _ _ _ ih =>
    intro within
    exact ih within
  | @jumpConst tag sym t f d =>
    intro within
    exact ((Draft.Traces.refl d).jumpTo _).parent rfl (List.Subset.refl _)
  | jumpNot _ ih =>
    intro within
    exact (ih.branch within List.mem_cons_self).parent rfl (by simp [Expr.inner, Expr.kids])
  | jumpRelation _ _ _ _ ih₁ ih₂ =>
    intro within
    have traces := (ih₁.value within List.mem_cons_self).trans
      (ih₂.value within (by simp [Expr.kids]))
    exact (traces.compare _ _ _ _ _).parent rfl (by simp [Expr.inner, Expr.kids])
  | jumpAnd _ _ ih₁ ih₂ | jumpOr _ _ ih₁ ih₂ =>
    intro within
    have traces := (ih₁.branch within List.mem_cons_self).trans
      (ih₂.branch within (by simp [Expr.kids]))
    exact traces.parent rfl (by simp [Expr.inner, Expr.kids])
  | @jumpAndOpen tag a b t d d₁ d₂ _ _ ih₁ ih₂ | @jumpOrOpen tag a b t d d₁ d₂ _ _ ih₁ ih₂ =>
    intro within
    have first := ((Draft.Traces.refl d).label).trans (ih₁.branch within List.mem_cons_self)
    have traces := first.trans (ih₂.branch within (by simp [Expr.kids]))
    exact (traces.place d.fresh).parent rfl (by simp [Expr.inner, Expr.kids])
  | jumpComma _ _ ih₁ ih₂ =>
    intro within
    have traces := (ih₁.effect within List.mem_cons_self).trans
      (ih₂.branch within (by simp [Expr.kids]))
    exact traces.parent rfl (by simp [Expr.inner, Expr.kids])
  | jumpValue _ _ _ ih =>
    intro within
    exact (ih within).test _ _ _ _
  | @argsNil d | @declsNil d | @stmtsNil loops level d =>
    intro within
    exact .refl d
  | argsCons _ _ ih₁ ih₂ =>
    intro within
    obtain ⟨head, rest⟩ := List.append_subset.mp within
    exact ((ih₁ head).code _).trans (ih₂ rest)
  | @declsPlain sym zeroFill ds d d₁ d₂ declared _ ih =>
    intro within
    subst declared
    exact ((Draft.Traces.refl d).declare sym zeroFill).trans (ih within)
  | @declsInit sym e v zeroFill ds d d₁ d₂ d₃ declared _ _ ih₁ ih₂ =>
    intro within
    subst declared
    obtain ⟨value, rest⟩ := List.append_subset.mp within
    have first := ((Draft.Traces.refl d).declare sym zeroFill).trans (ih₁ value)
    exact (first.initial sym _ v).trans (ih₂ rest)
  | expr _ ih =>
    intro within
    exact ih within
  | @«when» loops level c body d d₁ d₂ _ _ ih₁ ih₂ =>
    intro within
    obtain ⟨test, body⟩ := List.append_subset.mp within
    have first := ((Draft.Traces.refl d).label).trans (ih₁ test)
    exact (first.trans (ih₂ body)).place _
  | @ifElse loops level c a b d d₁ d₂ d₃ _ _ _ ih₁ ih₂ ih₃ =>
    intro within
    obtain ⟨test, within⟩ := List.append_subset.mp within
    obtain ⟨arm, other⟩ := List.append_subset.mp within
    have first := ((Draft.Traces.refl d).label.label).trans (ih₁ test)
    have second := ((first.trans (ih₂ arm)).code (.jump d.label.fresh)).place d.fresh
    exact ((second.trans (ih₃ other)).place d.label.fresh).mono
      (by simp +contextual [Task.nodes, Stmt.nodes])
  | @«while» loops level c s d d₁ d₂ d₃ labels _ _ ih₁ ih₂ =>
    intro within
    subst labels
    obtain ⟨test, body⟩ := List.append_subset.mp within
    have start : Draft.Traces tree [] [] [] d d := .refl d
    have looped := ((start.label.label.label.code (.jump d.label.fresh)).place d.fresh).trans (ih₁ body)
    have traces := ((looped.place d.label.fresh).trans (ih₂ test)).place d.label.label.fresh
    change Draft.Traces tree (c.nodes ++ s.nodes) (s.stores output) [] d _
    rw [← List.append_nil (s.stores output)]
    refine traces.mono fun x inside _ => ?_
    simpa [Task.nodes, or_comm] using inside
  | @block loops level decls body d d₁ d₂ _ _ ih₁ ih₂ =>
    intro within
    obtain ⟨heads, body⟩ := List.append_subset.mp within
    have opened := ((Draft.Traces.refl d).code (.blockEnter (level + 1))).trans (ih₁ heads)
    exact (opened.trans (ih₂ body)).code _
  | @retNone loops level d =>
    intro within
    exact (Draft.Traces.refl d).code _
  | @ret loops level e v d d₁ direct _ ih =>
    intro within
    have asked : (Stmt.ret (some e)).stores output = [] := by
      rcases direct with rfl | scalar
      · simp [Stmt.stores]
      · simp [Stmt.stores, scalar]
    change Draft.Traces tree e.nodes ((Stmt.ret (some e)).stores output) [] d _
    rw [asked]
    exact (ih within).code (.ret (some v))
  | @retStruct loops level e v out d d₁ d₂ hidden struct _ pointer ih =>
    intro within
    subst pointer
    have traces := ((ih within).load out .pointer).emit (o := .result out) rfl
      (n := { op := .assign, ty := e.ty, left := some (d₁.addr out).next, right := some v })
      ⟨rfl, _, d₁.next, rfl, by simp [Draft.load, Draft.addr, Draft.emit, Draft.next],
        by simp [Draft.load, Draft.addr, Draft.emit, Draft.next]⟩
    have asked : (Stmt.ret (some e)).stores output = [.result out] := by
      simp [Stmt.stores, struct, hidden]
    change Draft.Traces tree e.nodes ((Stmt.ret (some e)).stores output) [] d _
    rw [asked]
    exact traces.code (.ret none)
  | @«break» labels loops level d | @«continue» labels loops level d =>
    intro within
    exact (Draft.Traces.refl d).code _
  | stmtsCons _ _ ih₁ ih₂ =>
    intro within
    obtain ⟨head, rest⟩ := List.append_subset.mp within
    exact (ih₁ head).trans (ih₂ rest)

end CBackend

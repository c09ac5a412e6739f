import CBackend.Proofs.Lowering.Rules

/-!
Lowering only adds: codes, operators and symbols stay where they are once they have been written.
-/

namespace CBackend

theorem getElem?_of_grown {α : Type} {xs ys : List α} (grown : xs <+: ys) {i : Nat} {x : α}
    (found : xs[i]? = some x) : ys[i]? = some x := by
  obtain ⟨more, rfl⟩ := grown
  rw [List.getElem?_append_left (List.getElem?_eq_some_iff.mp found).1, found]

namespace SymbolTable

def Grows (t t' : SymbolTable) : Prop := t.entries.toList <+: t'.entries.toList

variable {t t' : SymbolTable} {sym : Symbol}

theorem Grows.refl (t : SymbolTable) : t.Grows t := List.prefix_rfl

theorem Grows.trans {t'' : SymbolTable} (first : t.Grows t') (second : t'.Grows t'') : t.Grows t'' :=
  List.IsPrefix.trans first second

theorem Grows.size_le (grows : t.Grows t') : t.size ≤ t'.size := List.IsPrefix.length_le grows

theorem Grows.entry_eq (grows : t.Grows t') (known : sym.index < t.size) :
    t'.entry sym = t.entry sym := by
  obtain ⟨rest, appended⟩ := grows
  have found : t'.entries[sym.index]? = t.entries[sym.index]? := by
    rw [← Array.getElem?_toList, ← Array.getElem?_toList, ← appended]
    exact List.getElem?_append_left known
  rw [entry, entry, Array.getD_eq_getD_getElem?, Array.getD_eq_getD_getElem?, found]

theorem Grows.kind_eq (grows : t.Grows t') (known : sym.index < t.size) :
    t'.kind sym = t.kind sym := congrArg SymbolEntry.kind (grows.entry_eq known)

theorem Grows.ty_eq (grows : t.Grows t') (known : sym.index < t.size) :
    t'.ty sym = t.ty sym := congrArg SymbolEntry.ty (grows.entry_eq known)

theorem grows_push (t : SymbolTable) (name : String) (kind : SymbolKind) (ty : CType) :
    t.Grows (t.push name kind ty).2 := by
  simp [Grows, push]

theorem grows_temp (t : SymbolTable) (ty : CType) : t.Grows (t.temp ty).2 := by
  simp [Grows, temp, push]

theorem grows_intern (t : SymbolTable) (name : String) (kind : SymbolKind) (ty : CType) :
    t.Grows (t.intern name kind ty).2 := by
  unfold intern
  split
  · exact .refl t
  · exact t.grows_push name kind ty

theorem kind_intern (t : SymbolTable) (name : String) (kind : SymbolKind) (ty : CType) :
    (t.intern name kind ty).2.kind (t.intern name kind ty).1 = kind ∧
      (t.intern name kind ty).1.index < (t.intern name kind ty).2.size := by
  unfold intern
  split
  · rename_i s found
    obtain ⟨i, search, rfl⟩ := Option.map_eq_some_iff.mp found
    obtain ⟨inside, holds, -⟩ := Array.findIdx?_eq_some_iff_getElem.mp search
    refine ⟨?_, inside⟩
    rw [SymbolTable.kind, entry, Array.getD_eq_getD_getElem?, Array.getElem?_eq_getElem inside]
    exact (of_decide_eq_true holds).1
  · simp [push, SymbolTable.kind, entry, size]

end SymbolTable

namespace Draft

structure Grows (d d' : Draft) : Prop where
  codes : d.codes <+: d'.codes
  nodes : d.nodes <+: d'.nodes
  symbols : d.symbols.Grows d'.symbols

variable {d d' d'' : Draft}

theorem Grows.refl (d : Draft) : d.Grows d := ⟨List.prefix_rfl, List.prefix_rfl, .refl _⟩

theorem Grows.trans (first : d.Grows d') (second : d'.Grows d'') : d.Grows d'' :=
  ⟨first.codes.trans second.codes, first.nodes.trans second.nodes,
    first.symbols.trans second.symbols⟩

theorem Grows.code (grows : d.Grows d') (c : Code) : d.Grows (d'.code c) :=
  grows.trans ⟨List.prefix_append _ _, List.prefix_rfl, .refl _⟩

theorem Grows.place (grows : d.Grows d') (l : Symbol) : d.Grows (d'.place l) := grows.code _

theorem Grows.emit (grows : d.Grows d') (n : LinNode) : d.Grows (d'.emit n) :=
  grows.trans ⟨List.prefix_append _ _, List.prefix_append _ _, .refl _⟩

theorem Grows.enter (grows : d.Grows d') {symbols : SymbolTable}
    (more : d'.symbols.Grows symbols) : d.Grows { d' with symbols } :=
  grows.trans ⟨List.prefix_rfl, List.prefix_rfl, more⟩

theorem Grows.label (grows : d.Grows d') : d.Grows d'.label :=
  grows.enter (SymbolTable.grows_push _ _ _ _)

theorem Grows.temp (grows : d.Grows d') (ty : CType) : d.Grows (d'.temp ty) :=
  (grows.enter (SymbolTable.grows_temp _ ty)).code _

theorem Grows.addr (grows : d.Grows d') (sym : Symbol) : d.Grows (d'.addr sym) := grows.emit _

theorem Grows.one (grows : d.Grows d') : d.Grows d'.one :=
  (grows.enter (SymbolTable.grows_intern _ _ _ _)).emit _

theorem Grows.zero (grows : d.Grows d') (ty : CType) : d.Grows (d'.zero ty) := by
  refine Grows.emit (grows.enter ?_) _
  split
  · exact SymbolTable.grows_intern _ _ _ _
  · exact SymbolTable.grows_intern _ _ _ _

theorem Grows.store (grows : d.Grows d') (sym : Symbol) (ty : CType) (v : LinId) :
    d.Grows (d'.store sym ty v) := (grows.addr sym).emit _

theorem Grows.load (grows : d.Grows d') (sym : Symbol) (ty : CType) :
    d.Grows (d'.load sym ty) := (grows.addr sym).emit _

theorem Grows.compare (grows : d.Grows d') (cond : Cond) (l r : LinId) (t f : Option Symbol) :
    d.Grows (d'.compare cond l r t f) := by
  match t, f with
  | some _, some _ => exact ((grows.emit _).code _).code _
  | some _, none => exact (grows.emit _).code _
  | none, some _ => exact (grows.emit _).code _
  | none, none => exact grows

theorem Grows.test (grows : d.Grows d') (ty : CType) (v : LinId) (t f : Option Symbol) :
    d.Grows (d'.test ty v t f) := (grows.zero ty).compare _ _ _ _ _

theorem Grows.jumpTo (grows : d.Grows d') (l : Option Symbol) : d.Grows (d'.jumpTo l) := by
  cases l with
  | none => exact grows
  | some l => exact grows.code _

theorem Grows.settle (grows : d.Grows d') (number : Nat) (id : LinId) :
    d.Grows (d'.settle number id) := grows.trans ⟨List.prefix_rfl, List.prefix_rfl, .refl _⟩

theorem Grows.clear (grows : d.Grows d') (sym : Symbol) : d.Grows (d'.clear sym) :=
  (grows.addr sym).code _

theorem Grows.declare (grows : d.Grows d') (sym : Symbol) (zeroFill : Bool) :
    d.Grows (if zeroFill then (d'.code (.declare sym)).clear sym else d'.code (.declare sym)) := by
  cases zeroFill with
  | false => exact grows.code _
  | true => exact (grows.code _).clear _

end Draft

open Draft in
theorem Lowers.grows {output : Option Symbol} {sharing : Bool} {task : Task} {d d' : Draft}
    (run : Lowers output sharing task d d') : d.Grows d' := by
  induction run with
  | reuse | effectKnown | argsNil | declsNil | stmtsNil => exact .refl _
  | first _ _ ih => exact ih.settle _ _
  | const => exact (Grows.refl _).emit _
  | addr => exact (Grows.refl _).addr _
  | deref _ ih | unary _ _ ih => exact ih.emit _
  | not _ ih => exact (ih.zero _).emit _
  | binary _ _ _ ih₁ ih₂ | relation _ _ _ ih₁ ih₂ | assign _ _ _ ih₁ ih₂ =>
    exact (ih₁.trans ih₂).emit _
  | truth _ declared _ yes no ih =>
    subst declared yes no
    have jumps := (((Grows.refl _).temp _).label.label).trans ih
    exact (((((jumps.one.store _ _ _).code _).place _).zero _).store _ _ _).place _ |>.load _ _
  | assignNarrow _ _ _ stored ih₁ ih₂ =>
    subst stored
    exact ((ih₁.trans ih₂).emit _).emit _
  | condVoid _ _ ih => exact ih.zero _
  | cond _ declared _ _ yes _ no ih₁ ih₂ ih₃ =>
    subst declared yes no
    have test := (((Grows.refl _).temp _).label.label).trans ih₁
    exact (((((((test.trans ih₂).store _ _ _).code _).place _).trans ih₃).store _ _ _).place _).load _ _
  | call _ _ _ ih₁ ih₂ => exact (ih₁.trans ih₂).emit _
  | callStruct _ declared _ _ called ih₁ ih₂ =>
    subst declared called
    exact ((((((Grows.refl _).temp _).trans ih₁).addr _).code _ |>.trans ih₂).emit _).load _ _
  | castKeep _ _ ih => exact ih
  | cast _ _ ih => exact ih.emit _
  | comma _ _ ih₁ ih₂ | effectComma _ _ ih₁ ih₂ | jumpAnd _ _ ih₁ ih₂ | jumpOr _ _ ih₁ ih₂
  | jumpComma _ _ ih₁ ih₂ | stmtsCons _ _ ih₁ ih₂ => exact ih₁.trans ih₂
  | effectValue _ _ ih | effectCond _ _ ih | branch _ _ _ ih | jumpNot _ ih | expr _ ih => exact ih
  | effectAnd _ _ _ ih₁ ih₂ | effectOr _ _ _ ih₁ ih₂ =>
    exact (((Grows.refl _).label.trans ih₁).trans ih₂).place _
  | jumpAndOpen _ _ ih₁ ih₂ | jumpOrOpen _ _ ih₁ ih₂ | «when» _ _ ih₁ ih₂ =>
    exact (((Grows.refl _).label.trans ih₁).trans ih₂).place _
  | choose _ _ _ ih₁ ih₂ ih₃ | ifElse _ _ _ ih₁ ih₂ ih₃ =>
    have arm := ((Grows.refl _).label.label.trans ih₁).trans ih₂
    exact ((((arm.code _).place _).trans ih₃)).place _
  | branchKnown => exact (Grows.refl _).test _ _ _ _
  | jumpConst => exact (Grows.refl _).jumpTo _
  | jumpRelation _ _ _ _ ih₁ ih₂ => exact (ih₁.trans ih₂).compare _ _ _ _ _
  | jumpValue _ _ _ ih => exact ih.test _ _ _ _
  | argsCons _ _ ih₁ ih₂ => exact (ih₁.code _).trans ih₂
  | declsPlain declared _ ih =>
    subst declared
    exact ((Grows.refl _).declare _ _).trans ih
  | declsInit declared _ _ ih₁ ih₂ =>
    subst declared
    exact ((((Grows.refl _).declare _ _).trans ih₁).store _ _ _).trans ih₂
  | «while» labels _ _ ih₁ ih₂ =>
    subst labels
    have body := (((Grows.refl _).label.label.label.code _).place _).trans ih₁
    exact ((body.place _).trans ih₂).place _
  | block _ _ ih₁ ih₂ => exact ((((Grows.refl _).code _).trans ih₁).trans ih₂).code _
  | retNone | «break» | «continue» => exact (Grows.refl _).code _
  | ret _ _ ih => exact ih.code _
  | retStruct _ _ _ pointer ih =>
    subst pointer
    exact ((ih.load _ _).emit _).code _

end CBackend

import CBackend.Proofs.Lowering.Structure

/-!
What lowering notes about nodes. A node is noted right after its value has been computed, and in no
other place.
-/

namespace CBackend

namespace Draft

/-- Notes are kept from one draft to another, and a node of a tree that is noted meanwhile has been
computed meanwhile. -/
structure Notes (output : Option Symbol) (sharing : Bool) (tree : List Expr) (d d' : Draft) :
    Prop where
  grows : d.Grows d'
  kept : ∀ {n id}, d.done.lookup n = some id → d'.done.lookup n = some id
  computed : ∀ {n id}, d.done.lookup n = none → d'.done.lookup n = some id →
    ∃ e ∈ tree, e.number = n ∧ ∃ d₁ d₂, Lowers output sharing (.compute e id) d₁ d₂ ∧
      d.Grows d₁ ∧ d₂.Grows d' ∧ ∀ {m v}, d₂.done.lookup m = some v → d'.done.lookup m = some v

namespace Notes

variable {output : Option Symbol} {sharing : Bool} {tree : List Expr} {d d₁ d₂ : Draft}

theorem adds (grows : d.Grows d₁) (done : d₁.done = d.done) : Notes output sharing tree d d₁ where
  grows := grows
  kept known := done ▸ known
  computed unknown known := by
    rw [done, unknown] at known
    cases known

theorem refl (d : Draft) : Notes output sharing tree d d := adds (.refl d) rfl

theorem trans (first : Notes output sharing tree d d₁) (second : Notes output sharing tree d₁ d₂) :
    Notes output sharing tree d d₂ where
  grows := first.grows.trans second.grows
  kept known := second.kept (first.kept known)
  computed {n id} unknown known := by
    cases between : d₁.done.lookup n with
    | none =>
      obtain ⟨e, inside, number, x, y, run, before, after, kept⟩ := second.computed between known
      exact ⟨e, inside, number, x, y, run, first.grows.trans before, after, kept⟩
    | some id' =>
      obtain rfl : id' = id := Option.some.inj ((second.kept between).symm.trans known)
      obtain ⟨e, inside, number, x, y, run, before, after, kept⟩ := first.computed unknown between
      exact ⟨e, inside, number, x, y, run, before, after.trans second.grows,
        fun known => second.kept (kept known)⟩

theorem emit (notes : Notes output sharing tree d d₁) (n : LinNode) :
    Notes output sharing tree d (d₁.emit n) := notes.trans (adds ((Grows.refl _).emit n) rfl)

theorem code (notes : Notes output sharing tree d d₁) (c : Code) :
    Notes output sharing tree d (d₁.code c) := notes.trans (adds ((Grows.refl _).code c) rfl)

theorem label (notes : Notes output sharing tree d d₁) : Notes output sharing tree d d₁.label :=
  notes.trans (adds (Grows.refl _).label rfl)

theorem temp (notes : Notes output sharing tree d d₁) (ty : CType) :
    Notes output sharing tree d (d₁.temp ty) := notes.trans (adds ((Grows.refl _).temp ty) rfl)

theorem zero (notes : Notes output sharing tree d d₁) (ty : CType) :
    Notes output sharing tree d (d₁.zero ty) := notes.trans (adds ((Grows.refl _).zero ty) rfl)

theorem one (notes : Notes output sharing tree d d₁) : Notes output sharing tree d d₁.one :=
  notes.trans (adds (Grows.refl _).one rfl)

theorem store (notes : Notes output sharing tree d d₁) (sym : Symbol) (ty : CType) (v : LinId) :
    Notes output sharing tree d (d₁.store sym ty v) := (notes.emit _).emit _

theorem load (notes : Notes output sharing tree d d₁) (sym : Symbol) (ty : CType) :
    Notes output sharing tree d (d₁.load sym ty) := (notes.emit _).emit _

theorem compare (notes : Notes output sharing tree d d₁) (cond : Cond) (l r : LinId)
    (t f : Option Symbol) : Notes output sharing tree d (d₁.compare cond l r t f) :=
  notes.trans (adds ((Grows.refl _).compare cond l r t f) (done_compare ..))

theorem declare (d : Draft) (sym : Symbol) (zeroFill : Bool) : Notes output sharing tree d
    (if zeroFill then (d.code (.declare sym)).clear sym else d.code (.declare sym)) :=
  adds ((Grows.refl d).declare sym zeroFill) (done_declare ..)

theorem settle (notes : Notes output sharing tree d d₁) {e : Expr} {id : LinId}
    (run : Lowers output sharing (.compute e id) d d₁) (inside : e ∈ tree)
    (unknown : d₁.done.lookup e.number = none) :
    Notes output sharing tree d (d₁.settle e.number id) where
  grows := notes.grows.settle _ _
  kept known := stable_settle unknown (notes.kept known)
  computed {n id'} absent known := by
    rw [lookup_settle] at known
    split at known
    · rename_i number
      cases known
      exact ⟨e, inside, number.symm, d, d₁, run, .refl d, (Grows.refl d₁).settle _ _,
        fun known => stable_settle unknown known⟩
    · obtain ⟨x, within, number, y, z, ran, before, after, kept⟩ := notes.computed absent known
      exact ⟨x, within, number, y, z, ran, before, after.settle _ _,
        fun known => stable_settle unknown (kept known)⟩

end Notes

end Draft

open Draft in
theorem Lowers.notes {output : Option Symbol} {sharing : Bool} {tree : List Expr} {task : Task}
    {d d' : Draft} (run : Lowers output sharing task d d') (same : SameNodes tree)
    (within : task.nodes ⊆ tree) : Notes output sharing tree d d' := by
  have kid {e : Expr} (within : e.nodes ⊆ tree) {k : Expr} (inside : k ∈ e.kids) :
      k.nodes ⊆ tree := Expr.within_kid within inside
  induction run with
  | reuse | effectKnown | argsNil | declsNil | stmtsNil => exact .refl _
  | @first e id d d' unknown run ih =>
    exact (ih within).settle run (within e.self_mem_nodes) (run.compute_unknown same within unknown)
  | const | addr => exact (Notes.refl _).emit _
  | deref _ ih | unary _ _ ih | cast _ _ ih => exact (ih (kid within List.mem_cons_self)).emit _
  | not _ ih => exact ((ih (kid within List.mem_cons_self)).zero _).emit _
  | binary _ _ _ ih₁ ih₂ | relation _ _ _ ih₁ ih₂ | assign _ _ _ ih₁ ih₂ =>
    exact ((ih₁ (kid within List.mem_cons_self)).trans
      (ih₂ (kid within (by simp [Expr.kids])))).emit _
  | truth _ declared _ yes no ih =>
    subst declared yes no
    have jumps := ((Notes.refl _).temp _).label.label.trans (ih within)
    exact ((((((jumps.one.store _ _ _).code _).code _).zero _).store _ _ _).code _).load _ _
  | assignNarrow _ _ _ stored ih₁ ih₂ =>
    subst stored
    exact (((ih₁ (kid within List.mem_cons_self)).trans
      (ih₂ (kid within (by simp [Expr.kids])))).emit _).emit _
  | condVoid _ _ ih => exact (ih (List.cons_subset.mp within).2).zero _
  | cond _ declared _ _ yes _ no ih₁ ih₂ ih₃ =>
    subst declared yes no
    have test := ((Notes.refl _).temp _).label.label.trans (ih₁ (kid within List.mem_cons_self))
    have arm := test.trans (ih₂ (kid within (by simp [Expr.kids])))
    exact (((((arm.store _ _ _).code _).code _).trans
      (ih₃ (kid within (by simp [Expr.kids])))).store _ _ _).code _ |>.load _ _
  | call _ _ _ ih₁ ih₂ =>
    exact ((ih₁ (Expr.within_args within)).trans (ih₂ (kid within List.mem_cons_self))).emit _
  | callStruct _ declared _ _ called ih₁ ih₂ =>
    subst declared called
    have pushed := ((Notes.refl _).temp _).trans (ih₁ (Expr.within_args within))
    exact ((((pushed.emit _).code _).trans (ih₂ (kid within List.mem_cons_self))).emit _).load _ _
  | castKeep _ _ ih => exact ih (kid within List.mem_cons_self)
  | comma _ _ ih₁ ih₂ | effectComma _ _ ih₁ ih₂ | jumpComma _ _ ih₁ ih₂ | jumpAnd _ _ ih₁ ih₂
  | jumpOr _ _ ih₁ ih₂ =>
    exact (ih₁ (kid within List.mem_cons_self)).trans (ih₂ (kid within (by simp [Expr.kids])))
  | effectValue _ _ ih | branch _ _ _ ih | expr _ ih => exact ih within
  | effectAnd _ _ _ ih₁ ih₂ | effectOr _ _ _ ih₁ ih₂ | jumpAndOpen _ _ ih₁ ih₂
  | jumpOrOpen _ _ ih₁ ih₂ =>
    exact (((Notes.refl _).label.trans (ih₁ (kid within List.mem_cons_self))).trans
      (ih₂ (kid within (by simp [Expr.kids])))).code _
  | effectCond _ _ ih => exact ih (List.cons_subset.mp within).2
  | choose _ _ _ ih₁ ih₂ ih₃ =>
    obtain ⟨ofTest, ofArms⟩ := List.append_subset.mp within
    obtain ⟨ofArm, ofOther⟩ := List.append_subset.mp ofArms
    have arm := ((Notes.refl _).label.label.trans (ih₁ ofTest)).trans (ih₂ ofArm)
    exact (((arm.code _).code _).trans (ih₃ ofOther)).code _
  | branchKnown => exact ((Notes.refl _).zero _).compare _ _ _ _ _
  | jumpConst => exact .adds ((Grows.refl _).jumpTo _) (done_jumpTo ..)
  | jumpNot _ ih => exact ih (kid within List.mem_cons_self)
  | jumpRelation _ _ _ _ ih₁ ih₂ =>
    exact ((ih₁ (kid within List.mem_cons_self)).trans
      (ih₂ (kid within (by simp [Expr.kids])))).compare _ _ _ _ _
  | jumpValue _ _ _ ih => exact ((ih within).zero _).compare _ _ _ _ _
  | argsCons _ _ ih₁ ih₂ =>
    have parts := List.append_subset.mp within
    exact ((ih₁ parts.1).code _).trans (ih₂ parts.2)
  | declsPlain declared _ ih =>
    subst declared
    exact (Notes.declare _ _ _).trans (ih within)
  | declsInit declared _ _ ih₁ ih₂ =>
    subst declared
    obtain ⟨ofInit, ofRest⟩ := List.append_subset.mp within
    exact (((Notes.declare _ _ _).trans (ih₁ ofInit)).store _ _ _).trans (ih₂ ofRest)
  | «when» _ _ ih₁ ih₂ =>
    obtain ⟨ofTest, ofBody⟩ := List.append_subset.mp within
    exact (((Notes.refl _).label.trans (ih₁ ofTest)).trans (ih₂ ofBody)).code _
  | ifElse _ _ _ ih₁ ih₂ ih₃ =>
    obtain ⟨ofTest, ofArms⟩ := List.append_subset.mp within
    obtain ⟨ofArm, ofOther⟩ := List.append_subset.mp ofArms
    have arm := ((Notes.refl _).label.label.trans (ih₁ ofTest)).trans (ih₂ ofArm)
    exact (((arm.code _).code _).trans (ih₃ ofOther)).code _
  | «while» labels _ _ ih₁ ih₂ =>
    subst labels
    obtain ⟨ofTest, ofBody⟩ := List.append_subset.mp within
    have body := ((Notes.refl _).label.label.label.code _).code _ |>.trans (ih₁ ofBody)
    exact ((body.code _).trans (ih₂ ofTest)).code _
  | block _ _ ih₁ ih₂ =>
    obtain ⟨ofHeads, ofBody⟩ := List.append_subset.mp within
    exact ((((Notes.refl _).code _).trans (ih₁ ofHeads)).trans (ih₂ ofBody)).code _
  | retNone | «break» | «continue» => exact (Notes.refl _).code _
  | ret _ _ ih => exact (ih within).code _
  | retStruct _ _ _ pointer ih =>
    subst pointer
    exact (((ih within).load _ _).emit _).code _
  | stmtsCons _ _ ih₁ ih₂ =>
    obtain ⟨ofHead, ofRest⟩ := List.append_subset.mp within
    exact (ih₁ ofHead).trans (ih₂ ofRest)

end CBackend

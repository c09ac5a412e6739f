import CBackend.Proofs.Lowering.Growth
import CBackend.Proofs.Selection.Entries
import CBackend.Proofs.Selection.Sources

/-!
The types of numbered values. A value has a type as soon as its operands have types that its
operator takes. The address of a variable is a value that no instruction has loaded yet, and so is
an integer that a conversion without widening makes of it; such a value can be loaded only as a
pointer.
-/

namespace CBackend

namespace CType

variable {ty : CType}

theorem isInteger_eq (ty : CType) :
    ty.isInteger = (ty.valueClass.isScalar && !ty.valueClass.isFloat) := by
  cases ty <;> rfl

theorem isFloat_eq (ty : CType) : ty.isFloat = ty.valueClass.isFloat := by cases ty <;> rfl

theorem isScalar_of_isInteger (integer : ty.isInteger = true) : ty.valueClass.isScalar = true := by
  rw [isInteger_eq] at integer
  exact (Bool.and_eq_true_iff.mp integer).1

theorem size_eq_width (integer : ty.isInteger = true) : ty.size = ty.valueClass.width := by
  cases ty <;> first | rfl | cases integer

theorem isFloat_eq_not_isInteger (scalar : ty.valueClass.isScalar = true) :
    ty.isFloat = !ty.isInteger := by
  rw [isInteger_eq, isFloat_eq, scalar, Bool.true_and, Bool.not_not]

theorem isStruct_of_isScalar (scalar : ty.valueClass.isScalar = true) : ty.isStruct = false := by
  cases ty <;> first | rfl | cases scalar

theorem convertsFrom_of_wider {srcTy : CType} (integer : ty.isInteger = true)
    (source : srcTy.isInteger = true) (wider : srcTy.size < ty.size) :
    ty.valueClass.convertsFrom srcTy.valueClass = true := by
  cases ty <;> cases integer <;> cases srcTy <;> cases source <;> first
    | rfl
    | exact absurd wider (by decide)

end CType

def CType.Loads (ty : CType) (address : Bool) : Prop :=
  ty.valueClass.isScalar = true ∧ (address = true → ty.valueClass = .u32)

/-- The type of a numbered value and whether it may be an address that has not been loaded. -/
inductive HasType (keys : List ValueKey) : NodeId → CType → (address : Bool) → Prop
  | const {id : NodeId} {key : ValueKey} (found : keys[id.index]? = some key)
      (op : key.op = .const) : HasType keys id key.ty false
  | addr {id : NodeId} {key : ValueKey} (found : keys[id.index]? = some key)
      (op : key.op = .addr) : HasType keys id key.ty true
  | load {id a : NodeId} {key : ValueKey} {ty : CType} {b : Bool}
      (found : keys[id.index]? = some key) (op : key.op = .load) (left : key.left = some a)
      (pointer : HasType keys a ty b) (scalar : ty.valueClass.isScalar = true) :
      HasType keys id key.ty false
  | unary {id a : NodeId} {key : ValueKey} {ty : CType} {b : Bool}
      (found : keys[id.index]? = some key) (op : key.op = .neg ∨ key.op = .compl)
      (computes : key.op.computesIn key.ty.valueClass = true) (left : key.left = some a)
      (operand : HasType keys a ty b) (loads : ty.Loads b) : HasType keys id key.ty false
  | binary {id a a' : NodeId} {key : ValueKey} {ty ty' : CType} {b b' : Bool}
      (found : keys[id.index]? = some key) (op : key.op.isBinary = true)
      (computes : key.op.computesIn key.ty.valueClass = true) (left : key.left = some a)
      (right : key.right = some a') (first : HasType keys a ty b) (loads : ty.Loads b)
      (second : HasType keys a' ty' b') (loads' : ty'.Loads b') : HasType keys id key.ty false
  | cmp {id a a' : NodeId} {key : ValueKey} {cond : Cond} {ty ty' : CType} {b b' : Bool}
      (found : keys[id.index]? = some key) (op : key.op = .cmp cond)
      (scalar : key.ty.valueClass.isScalar = true) (left : key.left = some a)
      (right : key.right = some a') (first : HasType keys a ty b) (loads : ty.Loads b)
      (second : HasType keys a' ty' b') (loads' : ty'.Loads b') : HasType keys id key.ty false
  | narrow {id a : NodeId} {key : ValueKey} {ty : CType} {b : Bool}
      (found : keys[id.index]? = some key) (op : key.op = .cvt) (left : key.left = some a)
      (operand : HasType keys a ty b) (source : ty.isInteger = true)
      (target : key.ty.isInteger = true) (narrower : key.ty.size ≤ ty.size) :
      HasType keys id key.ty b
  | convert {id a : NodeId} {key : ValueKey} {ty : CType} {b : Bool}
      (found : keys[id.index]? = some key) (op : key.op = .cvt) (left : key.left = some a)
      (operand : HasType keys a ty b) (loads : ty.Loads b)
      (scalar : key.ty.valueClass.isScalar = true) (differs : ty.valueClass ≠ key.ty.valueClass)
      (wider : ty.isInteger = true → key.ty.isInteger = true → ty.size < key.ty.size) :
      HasType keys id key.ty false
  | call {id a : NodeId} {key : ValueKey} {ty : CType} {b : Bool}
      (found : keys[id.index]? = some key) (op : key.op = .call) (left : key.left = some a)
      (callee : HasType keys a ty b) (scalar : ty.valueClass.isScalar = true)
      (result : key.ty = .void ∨ key.ty.valueClass.isScalar = true) : HasType keys id key.ty false

inductive HasType.Stores (keys : List ValueKey) : NodeId → Prop
  | intro {id a v : NodeId} {key : ValueKey} {ty ty' : CType} {b b' : Bool}
      (found : keys[id.index]? = some key) (op : key.op = .assign)
      (scalar : key.ty.valueClass.isScalar = true) (left : key.left = some a)
      (right : key.right = some v) (pointer : HasType keys a ty b)
      (integer : ty.valueClass.isScalar = true) (value : HasType keys v ty' b')
      (loads : ty'.Loads b') : Stores keys id

namespace HasType

variable {keys keys' : List ValueKey} {id id' : NodeId} {ty : CType} {b : Bool}

theorem found (typed : HasType keys id ty b) : ∃ key, keys[id.index]? = some key ∧ key.ty = ty := by
  cases typed <;> exact ⟨_, ‹_›, rfl⟩

def Demands (keys : List ValueKey) (key : ValueKey) : Prop :=
  match key.op with
  | .cmp _ => ∃ l r ty ty' b b', key.left = some l ∧ key.right = some r ∧ HasType keys l ty b ∧
      ty.Loads b ∧ HasType keys r ty' b' ∧ ty'.Loads b'
  | .call => ∃ k ty b, key.left = some k ∧ HasType keys k ty b ∧ ty.valueClass.isScalar = true ∧
      (key.ty = .void ∨ key.ty.valueClass.isScalar = true)
  | .assign => False
  | _ => True

theorem demands {key : ValueKey} (typed : HasType keys id ty b)
    (known : keys[id.index]? = some key) : Demands keys key := by
  unfold Demands
  cases typed with
  | cmp found op _ left right first loads second loads' =>
    cases known.symm.trans found
    rw [op]
    exact ⟨_, _, _, _, _, _, left, right, first, loads, second, loads'⟩
  | call found op left callee scalar result =>
    cases known.symm.trans found
    rw [op]
    exact ⟨_, _, _, left, callee, scalar, result⟩
  | unary found op =>
    cases known.symm.trans found
    rcases op with op | op <;> rw [op] <;> trivial
  | binary found op =>
    cases known.symm.trans found
    split <;> rename_i other <;> first | trivial | (rw [other] at op; cases op)
  | const found op | addr found op | load found op | narrow found op | convert found op =>
    cases known.symm.trans found
    rw [op]
    trivial

/-- A number may stand for another if their keys have the same operator and type, and the operands
of the one may stand for those of the other. -/
structure Mirrors (keys keys' : List ValueKey) (R : NodeId → NodeId → Prop) : Prop where
  key : ∀ {id id' key}, R id id' → keys[id.index]? = some key →
    ∃ key', keys'[id'.index]? = some key' ∧ key'.op = key.op ∧ key'.ty = key.ty ∧
      (∀ k, key.left = some k → ∃ k', key'.left = some k' ∧ R k k') ∧
      ∀ k, key.right = some k → ∃ k', key'.right = some k' ∧ R k k'

theorem mirror {R : NodeId → NodeId → Prop} (typed : HasType keys id ty b)
    (mirrors : Mirrors keys keys' R) (same : R id id') : HasType keys' id' ty b := by
  induction typed generalizing id' with
  | const found op =>
    obtain ⟨key', found', op', ty', -, -⟩ := mirrors.key same found
    rw [← ty']
    exact .const found' (op'.trans op)
  | addr found op =>
    obtain ⟨key', found', op', ty', -, -⟩ := mirrors.key same found
    rw [← ty']
    exact .addr found' (op'.trans op)
  | load found op left _ scalar ih =>
    obtain ⟨key', found', op', ty', left', -⟩ := mirrors.key same found
    obtain ⟨a, left', same⟩ := left' _ left
    rw [← ty']
    exact .load found' (op'.trans op) left' (ih same) scalar
  | unary found op computes left _ loads ih =>
    obtain ⟨key', found', op', ty', left', -⟩ := mirrors.key same found
    obtain ⟨a, left', same⟩ := left' _ left
    rw [← op', ← ty'] at computes
    rw [← op'] at op
    rw [← ty']
    exact .unary found' op computes left' (ih same) loads
  | binary found op computes left right _ loads _ loads' ih₁ ih₂ =>
    obtain ⟨key', found', op', ty', left', right'⟩ := mirrors.key same found
    obtain ⟨a, left', first⟩ := left' _ left
    obtain ⟨a', right', second⟩ := right' _ right
    rw [← op', ← ty'] at computes
    rw [← op'] at op
    rw [← ty']
    exact .binary found' op computes left' right' (ih₁ first) loads (ih₂ second) loads'
  | cmp found op scalar left right _ loads _ loads' ih₁ ih₂ =>
    obtain ⟨key', found', op', ty', left', right'⟩ := mirrors.key same found
    obtain ⟨a, left', first⟩ := left' _ left
    obtain ⟨a', right', second⟩ := right' _ right
    rw [← ty'] at scalar ⊢
    exact .cmp found' (op'.trans op) scalar left' right' (ih₁ first) loads (ih₂ second) loads'
  | narrow found op left _ source target narrower ih =>
    obtain ⟨key', found', op', ty', left', -⟩ := mirrors.key same found
    obtain ⟨a, left', same⟩ := left' _ left
    rw [← ty'] at target narrower ⊢
    exact .narrow found' (op'.trans op) left' (ih same) source target narrower
  | convert found op left _ loads scalar differs wider ih =>
    obtain ⟨key', found', op', ty', left', -⟩ := mirrors.key same found
    obtain ⟨a, left', same⟩ := left' _ left
    rw [← ty'] at scalar differs wider ⊢
    exact .convert found' (op'.trans op) left' (ih same) loads scalar differs wider
  | call found op left _ scalar result ih =>
    obtain ⟨key', found', op', ty', left', -⟩ := mirrors.key same found
    obtain ⟨a, left', same⟩ := left' _ left
    rw [← ty'] at result ⊢
    exact .call found' (op'.trans op) left' (ih same) scalar result

theorem Stores.mirror {R : NodeId → NodeId → Prop} (stores : Stores keys id)
    (mirrors : Mirrors keys keys' R) (same : R id id') : Stores keys' id' := by
  obtain ⟨found, op, scalar, left, right, pointer, integer, value, loads⟩ := stores
  obtain ⟨key', found', op', ty', left', right'⟩ := mirrors.key same found
  obtain ⟨a, left', first⟩ := left' _ left
  obtain ⟨v, right', second⟩ := right' _ right
  rw [← ty'] at scalar
  exact .intro found' (op'.trans op) scalar left' right' (pointer.mirror mirrors first) integer
    (value.mirror mirrors second) loads

theorem mirrors_grown (grown : keys <+: keys') : Mirrors keys keys' Eq where
  key := by
    rintro id _ key rfl found
    exact ⟨key, getElem?_of_grown grown found, rfl, rfl, fun k left => ⟨k, left, rfl⟩,
      fun k right => ⟨k, right, rfl⟩⟩

theorem mono (typed : HasType keys id ty b) (grown : keys <+: keys') : HasType keys' id ty b :=
  typed.mirror (mirrors_grown grown) rfl

theorem Stores.mono (stores : Stores keys id) (grown : keys <+: keys') : Stores keys' id :=
  stores.mirror (mirrors_grown grown) rfl

end HasType

def LinNode.key (n : LinNode) : ValueKey :=
  ⟨n.op, n.ty, n.sym, n.left.map fun l => ⟨l.index⟩, n.right.map fun l => ⟨l.index⟩⟩

namespace LinearFunction

def nodeKeys (f : LinearFunction) : List ValueKey := f.nodes.toList.map LinNode.key

theorem mirrors_copies {f : LinearFunction} {keys : List ValueKey} :
    HasType.Mirrors f.nodeKeys keys fun l id => f.Copies keys ⟨l.index⟩ id where
  key := by
    rintro l id key ⟨number, found, op, ty, -, left, right, kids⟩ here
    have same : (f.node ⟨l.index⟩).key = key := by
      rw [nodeKeys, List.getElem?_map, Option.map_eq_some_iff] at here
      obtain ⟨n, there, rfl⟩ := here
      rw [node, Array.getD_eq_getD_getElem?, ← Array.getElem?_toList, there]
      rfl
    subst same
    refine ⟨_, found, op, ty, fun k first => ?_, fun k second => ?_⟩
    · obtain ⟨l', kid, rfl⟩ := Option.map_eq_some_iff.mp first
      refine ⟨number l', by rw [left, kid]; rfl, kids l' ?_⟩
      simp [LinNode.kids, kid]
    · obtain ⟨l', kid, rfl⟩ := Option.map_eq_some_iff.mp second
      refine ⟨number l', by rw [right, kid]; rfl, kids l' ?_⟩
      simp [LinNode.kids, kid]

end LinearFunction

end CBackend

import CBackend.Proofs.Selection.Allocation
import CBackend.Selection.Rules

/-!
Selection keeps values and registers in agreement, whatever the value is computed from. Operands
have smaller numbers than their values, so asking for them ends; a conversion asks for one value
with a new number in between, whose own conversion needs none.
-/

namespace CBackend.Gen

open Generator

variable {n fuel : Nat} {g : Generator} {id kid : NodeId} {select : Selector}

def Serves (select : Selector) (id : NodeId) : Prop :=
  ∀ n mask, id.index < n → Respects n (select id mask) Operand.Proper

/-- A selector that can be asked for a value put between another one and its operand. -/
def ServesStage (select : Selector) (kid : NodeId) (via : CType) : Prop :=
  ∀ n g id mask, g.Selecting n → id.index < n → (g.pool.node id).key = .unary .cvt via kid →
    RespectsAt n g (select id mask) Operand.Proper

theorem respects_firstKid (id : NodeId) : Respects n (firstKid id) fun k => k.index < id.index := by
  unfold firstKid
  refine (respects_node id).bind fun v ⟨kids, _⟩ => ?_
  split
  · rename_i k left
    exact .pure (kids k (by simp [ValueKey.kids, left]))
  · exact Respects.throw rfl

theorem respects_bothKids (id : NodeId) :
    Respects n (bothKids id) fun k => k.1.index < id.index ∧ k.2.index < id.index := by
  unfold bothKids
  refine (respects_node id).bind fun v ⟨kids, _⟩ => ?_
  dsimp only
  split
  · rename_i l r left right
    refine .pure ⟨kids l ?_, kids r ?_⟩
    · simp [ValueKey.kids, left]
    · simp [ValueKey.kids, right]
  · exact Respects.throw rfl

theorem respects_leafSymbol (id : NodeId) : Respects n (leafSymbol id) fun _ => True := by
  unfold leafSymbol
  refine (respects_node id).bind fun v _ => ?_
  split
  · exact .pure trivial
  · exact Respects.throw rfl

theorem respects_addressOf (sym : Symbol) : Respects n (addressOf sym) fun _ => True := by
  unfold addressOf
  refine Keeps.get.bind fun g _ => ?_
  dsimp only
  split
  · split
    · exact .pure trivial
    · exact Respects.throw rfl
  · exact .pure trivial

theorem respects_derefAddress (op : Operand) : Respects n (derefAddress op) fun _ => True := by
  unfold derefAddress
  split
  · exact .pure trivial
  · exact .pure trivial
  · exact Respects.throw rfl

theorem respects_moveTo (ty : ValueClass) (dst src : Operand) :
    Respects n (moveTo ty dst src) fun _ => True :=
  (outputs_moveOpcode _ _ _).respects.bind fun _ _ => (outputs_emit' _).respects

section Operators

variable (issued : id.index < n) (serves : ∀ k, k.index < id.index → Serves select k)
include issued serves

theorem respects_kid {k : NodeId} (below : k.index < id.index) (mask : Format) :
    Respects n (select k mask) Operand.Proper :=
  serves k below n mask (Nat.lt_trans below issued)

theorem respects_selectBinary : Respects n (selectBinary select id) Operand.Proper := by
  unfold selectBinary
  refine (respects_node id).bind fun v _ => ?_
  refine (respects_bothKids id).bind fun (l, r) ⟨left, right⟩ => ?_
  refine (outputs_forOp v.op).respects.bind fun table _ => ?_
  refine (respects_kid issued serves right _).bind fun rhs waits => ?_
  refine (respects_holdValue (Nat.lt_trans right issued) waits).bind fun _ _ => ?_
  refine (respects_kid issued serves left _).bind fun lhs proper => ?_
  refine (respects_hold lhs).bind fun _ _ => ?_
  refine (respects_claim proper v.ty).bind fun dst there => ?_
  refine (respects_hold dst).bind fun _ _ => ?_
  refine (respects_takeHeld _).bind fun rhs _ => ?_
  refine (respects_release dst).bind fun _ _ => ?_
  refine (outputs_lookup _ _).respects.bind fun op _ => ?_
  refine (outputs_emit' _).respects.bind fun _ _ => ?_
  refine (respects_release lhs).bind fun _ _ => ?_
  refine (respects_release rhs).bind fun _ _ => ?_
  exact (respects_locate issued there).bind fun _ _ => .pure there

theorem respects_selectUnary : Respects n (selectUnary select id) Operand.Proper := by
  unfold selectUnary
  refine (respects_node id).bind fun v _ => ?_
  refine (outputs_forOp v.op).respects.bind fun table _ => ?_
  refine (outputs_lookup _ _).respects.bind fun op _ => ?_
  refine (respects_firstKid id).bind fun kid below => ?_
  refine (respects_kid issued serves below _).bind fun v proper => ?_
  refine (respects_hold v).bind fun _ _ => ?_
  refine (respects_claim proper _).bind fun dst there => ?_
  refine (respects_release v).bind fun _ _ => ?_
  refine (outputs_emit' _).respects.bind fun _ _ => ?_
  exact (respects_locate issued there).bind fun _ _ => .pure there

theorem respects_compareKids : Respects n (compareKids select id) fun _ => True := by
  unfold compareKids
  refine (respects_bothKids id).bind fun (l, r) ⟨left, right⟩ => ?_
  refine (respects_node l).bind fun v _ => ?_
  refine (respects_kid issued serves right _).bind fun rhs waits => ?_
  refine (respects_holdValue (Nat.lt_trans right issued) waits).bind fun _ _ => ?_
  refine (respects_kid issued serves left _).bind fun lhs _ => ?_
  refine (respects_hold lhs).bind fun _ _ => ?_
  refine (respects_takeHeld _).bind fun rhs _ => ?_
  refine (outputs_lookup _ _).respects.bind fun op _ => ?_
  refine (outputs_emit' _).respects.bind fun _ _ => ?_
  exact (respects_release lhs).bind fun _ _ => respects_release rhs

theorem respects_selectComparison (cond : Cond) :
    Respects n (selectComparison select id cond) Operand.Proper := by
  unfold selectComparison
  refine (respects_compareKids issued serves).bind fun _ _ => ?_
  refine (respects_alloc _).bind fun r allocatable => ?_
  refine (outputs_emit' _).respects.bind fun _ _ => ?_
  have there := Operand.proper_single allocatable
  exact (respects_locate issued there).bind fun _ _ => .pure there

end Operators

theorem stage_run (start : g.Selecting n) (below : kid.index < g.pool.size) (via : CType) :
    ∃ g', stage kid via g = .ok ⟨g.pool.size⟩ g' ∧ g'.Selecting (g.pool.size + 1) ∧
      (g'.pool.node ⟨g.pool.size⟩).key = .unary .cvt via kid := by
  have kids : ∀ k ∈ (ValueKey.unary .cvt via kid).kids, k.index < g.pool.size := by
    simpa [ValueKey.kids, ValueKey.unary] using below
  refine ⟨_, rfl, (start.fresh kids 0).modify ⟨g.pool.size⟩ (fun _ => by rfl) fun _ => by rfl, ?_⟩
  change (((g.pool.fresh (.unary .cvt via kid) 0).2.modify ⟨g.pool.size⟩ _).node _).key = _
  rw [ValuePool.node_modify, if_pos (by simp), ValuePool.node_fresh, if_pos rfl]

theorem convert_ends (start : g.Selecting n) (issued : id.index < n)
    (asks : ∀ mask, RespectsAt n g (select kid mask) Operand.Proper) (ty srcTy : CType) :
    RespectsAt n g (convert select id kid ty srcTy) Operand.Proper := by
  unfold convert
  dsimp only
  split
  · exact ⟨start, rfl⟩
  refine (asks _).bind fun v g' ⟨next, _⟩ => ?_
  refine (Keeps.bind (respects_hold v) fun _ _ => ?_).ends g' next
  refine (respects_allocValue ty).bind fun dst there => ?_
  refine (respects_release v).bind fun _ _ => ?_
  refine (outputs_lookup _ _).respects.bind fun op _ => ?_
  refine (outputs_emit' _).respects.bind fun _ _ => ?_
  exact (respects_locate issued there).bind fun _ _ => .pure there

theorem proper_lowPart {op : Operand} (proper : op.Proper) (ty : CType) : (lowPart ty op).Proper := by
  cases op with
  | imm | mem | ind => exact proper
  | reg lo hi =>
    change (if ty.isWide then Operand.reg lo hi else .single lo).Proper
    split
    · exact proper
    · exact Operand.proper_single proper.low

theorem integerStage?_eq {srcTy via : CType} (some_ : integerStage? srcTy = some via) :
    via = .int ∨ via = .llong := by
  unfold integerStage? at some_
  split at some_ <;> cases some_ <;> simp

theorem floatingStage?_eq {ty via : CType} (some_ : floatingStage? ty = some via) :
    via = .int ∨ via = .llong := by
  unfold floatingStage? at some_
  split at some_ <;> cases some_ <;> simp

theorem stage_bind {α : Type} {result : α → Prop} {f : NodeId → Gen α} {via : CType}
    (start : g.Selecting n) (below : kid.index < n) (serves : ServesStage select kid via)
    (rest : ∀ s g', g'.Selecting n → (∀ mask, RespectsAt n g' (select s mask) Operand.Proper) →
      RespectsAt n g' (f s) result) : RespectsAt n g (stage kid via >>= f) result := by
  obtain ⟨g', run, next, key⟩ := stage_run start (Nat.lt_of_lt_of_le below start.size) via
  have more : n ≤ g.pool.size + 1 := Nat.le_succ_of_le start.size
  refine .after_ok run (rest _ g' (next.weaken more) fun mask => ?_)
  exact (serves _ g' _ mask next (Nat.lt_succ_self _) key).weaken more

theorem selectConversion_ends (start : g.Selecting n) (issued : id.index < n)
    (left : (g.pool.node id).key.left = some kid) (serves : Serves select kid)
    (staged : ∀ via, via = .int ∨ via = .llong →
      (g.pool.node id).ty ≠ .int → (g.pool.node id).ty ≠ .llong → ServesStage select kid via) :
    RespectsAt n g (selectConversion select id) Operand.Proper := by
  have below : kid.index < n := by
    refine Nat.lt_trans (start.kids id kid ?_) issued
    simp [ValueKey.kids, left]
  have asks (mask : Format) := (serves n mask below).ends g start
  have first : firstKid id g = .ok kid g := by
    unfold firstKid
    rw [bind_run (x := node id) rfl, left]
    rfl
  unfold selectConversion
  refine .after_ok (x := node id) rfl ?_
  refine .after_ok first ?_
  refine .after_ok (x := node kid) rfl ?_
  dsimp only
  split
  · split
    · refine (asks _).bind fun op g' ⟨next, proper⟩ => ?_
      exact ⟨next, proper_lowPart proper _⟩
    · exact convert_ends start issued asks _ _
  split
  · rename_i floating
    rw [Bool.and_eq_true] at floating
    split
    · rename_i via found
      refine stage_bind start below (staged via (integerStage?_eq found) ?_ ?_)
        fun s g' next asks => convert_ends next issued asks _ _
      · intro same
        rw [same] at floating
        cases floating.1
      · intro same
        rw [same] at floating
        cases floating.1
    · exact convert_ends start issued asks _ _
  split
  · split
    · exact convert_ends start issued asks _ _
    · rename_i via found
      refine stage_bind start below (staged via (floatingStage?_eq found) ?_ ?_)
        fun s g' next asks => ?_
      · intro same
        rw [same] at found
        cases found
      · intro same
        rw [same] at found
        cases found
      · refine (asks _).bind fun op g'' ⟨last, proper⟩ => ?_
        have there := proper_lowPart proper (g.pool.node id).ty
        exact (Keeps.bind (respects_locate issued there) fun _ _ => .pure there).ends g'' last
  split
  · exact convert_ends start issued asks _ _
  · exact ⟨start, rfl⟩

theorem compute_ends (start : g.Selecting n) (issued : id.index < n)
    (serves : ∀ k, k.index < id.index → Serves select k)
    (staged : ∀ k via, k.index < id.index → via = .int ∨ via = .llong → ServesStage select k via) :
    RespectsAt n g (compute select id) Operand.Proper := by
  unfold compute
  refine .after_ok (x := node id) rfl ?_
  cases (g.pool.node id).op with
  | const =>
    refine (Keeps.bind (respects_leafSymbol id) fun _ _ => ?_).ends g start
    exact .pure (Operand.proper_imm _)
  | addr =>
    refine (Keeps.bind (respects_leafSymbol id) fun sym _ => ?_).ends g start
    exact (respects_addressOf sym).bind fun _ _ => .pure (Operand.proper_mem _)
  | load =>
    refine (Keeps.bind (respects_firstKid id) fun kid below => ?_).ends g start
    refine (respects_kid issued serves below _).bind fun op _ => ?_
    exact (respects_derefAddress op).bind fun _ _ => .pure (Operand.proper_ind _)
  | neg | compl => exact (respects_selectUnary issued serves).ends g start
  | cmp cond => exact (respects_selectComparison issued serves cond).ends g start
  | cvt =>
    cases left : (g.pool.node id).key.left with
    | none =>
      refine .after_ok (x := node id) rfl ?_
      have stops : Ends (firstKid id) g (fun _ _ => False)
          fun e g' => g'.Selecting n ∧ e.inconsistent = false := by
        refine .after_ok (x := node id) rfl ?_
        rw [left]
        exact ⟨start, rfl⟩
      exact stops.bind fun _ _ none => none.elim
    | some kid =>
      have below : kid.index < id.index := start.kids id kid (by simp [ValueKey.kids, left])
      exact selectConversion_ends start issued left (serves kid below) fun via known _ _ =>
        staged kid via below known
  | add | sub | mul | div | mod | and | or | xor | shl | shr =>
    exact (respects_selectBinary issued serves).ends g start
  | assign | call => exact ⟨start, rfl⟩

theorem selectWithin_ends (start : g.Selecting n) (issued : id.index < n) (mask : Format)
    (computes : ∀ g', g'.Selecting n → (g'.pool.node id).key = (g.pool.node id).key →
      RespectsAt n g' (compute (selectWithin fuel) id) Operand.Proper) :
    RespectsAt n g (selectWithin (fuel + 1) id mask) Operand.Proper := by
  unfold selectWithin
  have used : ({ g with pool := g.pool.modify id fun v => { v with pending := v.pending - 1 } } :
      Generator).Selecting n := start.modify id (fun _ => rfl) fun _ => rfl
  refine .after_ok (x := modifyNode id _) rfl ?_
  refine .after_ok (x := node id) rfl ?_
  dsimp only
  split
  · rename_i loc place
    exact (respects_coerce issued (used.agrees.proper place) mask).ends _ used
  · refine (computes _ used ?_).bind fun op g' ⟨next, proper⟩ => ?_
    · rw [ValuePool.node_modify]
      split <;> rfl
    · exact (respects_coerce issued proper mask).ends g' next

theorem servesStage_selectWithin {via : CType} (known : via = .int ∨ via = .llong)
    (serves : Serves (selectWithin fuel) kid) : ServesStage (selectWithin (fuel + 1)) kid via := by
  intro n g id mask start issued key
  refine selectWithin_ends start issued mask fun g' next same => ?_
  rw [key] at same
  have op : (g'.pool.node id).op = .cvt := congrArg ValueKey.op same
  unfold compute
  refine .after_ok (x := node id) rfl ?_
  rw [op]
  refine selectConversion_ends next issued (congrArg ValueKey.left same) serves ?_
  intro _ _ other other'
  have ty : (g'.pool.node id).ty = via := congrArg ValueKey.ty same
  rw [ty] at other other'
  exact absurd known (not_or.mpr ⟨other, other'⟩)

theorem serves_selectWithin (enough : 2 * id.index + 2 ≤ fuel) : Serves (selectWithin fuel) id := by
  induction fuel using Nat.strongRecOn generalizing id with
  | ind fuel ih =>
    obtain ⟨fuel, rfl⟩ : ∃ f, fuel = f + 1 := ⟨fuel - 1, by omega⟩
    refine fun n mask issued => ⟨fun g start => ?_⟩
    refine selectWithin_ends start issued mask fun g' next _ => ?_
    refine compute_ends next issued (fun k below => ih fuel (by omega) (by omega)) ?_
    intro k via below known
    obtain ⟨fuel, rfl⟩ : ∃ f, fuel = f + 1 := ⟨fuel - 1, by omega⟩
    exact servesStage_selectWithin known (ih fuel (by omega) (by omega))

theorem serves_select (id : NodeId) : Serves Gen.select id := fun n mask issued =>
  serves_selectWithin (Nat.le_refl _) n mask issued

theorem respects_saveUsers (r : Reg) :
    Respects n (do (← usersOf r).forM saveAcrossCall) fun _ => True := by
  refine ⟨fun g start => ?_⟩
  refine .after_ok (x := usersOf r) rfl ?_
  have loop : Ends (((g.regs.users r).map RegUser.node).forM saveAcrossCall) g
      (fun _ g' => g'.Selecting n ∧ ∀ id, g.InRegisters id → g'.InRegisters id)
      fun e g' => g'.Selecting n ∧ e.inconsistent = false := by
    refine Ends.forM ⟨start, fun _ inside => inside⟩ ?_
    intro id user g₁ ⟨start₁, inside⟩
    unfold saveAcrossCall
    refine .after_ok (x := isLive id) rfl ?_
    refine .after_ok (x := node id) rfl ?_
    split
    · refine (spill_ends start₁ (inside id (mem_users_inRegisters start user))).imp ?_
      intro _ g₂ ⟨start₂, _, slot, pool⟩
      refine ⟨start₂, fun k there => ?_⟩
      have place := inside k there
      unfold InRegisters at place ⊢
      rw [pool, ValuePool.node_modify]
      split <;> exact place
    · exact ⟨start₁, inside⟩
  exact loop.imp fun _ _ ⟨kept, _⟩ => ⟨kept, trivial⟩

section Codes

variable (issued : id.index < n)
include issued

theorem respects_selectBranch (target : Symbol) :
    Respects n (selectBranch Gen.select id target) fun _ => True := by
  unfold selectBranch
  refine (respects_node id).bind fun v _ => ?_
  split
  · refine (respects_compareKids issued fun k _ => serves_select k).bind fun _ _ => ?_
    exact respects_flushRegisters.bind fun _ _ => (outputs_emit' _).respects
  · exact Respects.throw rfl

theorem respects_selectAssign : Respects n (selectAssign Gen.select id) fun _ => True := by
  unfold selectAssign
  refine (respects_node id).bind fun v _ => ?_
  refine (respects_bothKids id).bind fun (a, v) ⟨left, right⟩ => ?_
  have right := Nat.lt_trans right issued
  refine (serves_select v n _ right).bind fun src waits => ?_
  refine (respects_holdValue right waits).bind fun _ _ => ?_
  refine (serves_select a n _ (Nat.lt_trans left issued)).bind fun pointer _ => ?_
  refine (respects_derefAddress pointer).bind fun address _ => ?_
  refine (respects_hold _).bind fun _ _ => ?_
  refine (respects_takeHeld _).bind fun src _ => ?_
  refine (respects_release _).bind fun _ _ => ?_
  split
  · exact (outputs_emit' _).respects.bind fun _ _ => respects_release src
  · exact (respects_moveTo _ _ _).bind fun _ _ => respects_release src

theorem respects_selectCall : Respects n (selectCall Gen.select id) fun _ => True := by
  unfold selectCall
  refine (respects_node id).bind fun v _ => ?_
  refine (respects_firstKid id).bind fun callee below => ?_
  refine (serves_select callee n _ (Nat.lt_trans below issued)).bind fun target _ => ?_
  refine (outputs_lookup _ _).respects.bind fun op _ => ?_
  refine (respects_hold target).bind fun _ _ => ?_
  refine Keeps.get.bind fun _ _ => ?_
  refine (Keeps.forM fun r _ => ?_).bind fun _ _ => ?_
  · refine Keeps.get.bind fun _ _ => ?_
    split
    · exact respects_free r
    · exact .pure trivial
  refine Keeps.get.bind fun _ _ => ?_
  refine (Keeps.forM fun r _ => respects_saveUsers r).bind fun _ _ => ?_
  refine (outputs_emit' _).respects.bind fun _ _ => ?_
  refine (respects_release target).bind fun _ _ => ?_
  refine respects_flushRegisters.bind fun _ _ => ?_
  have last : Respects n (do
      if v.ty = .void then
        let zero ← onSymbols (·.intConst 0 .int)
        locate id (.imm zero)
      else if v.ty.isFloat then locate id (.single .f0)
      else if v.ty.isWide then locate id (.pair .eax .edx)
      else if v.ty.isStruct then throw (.invariant .structInRegisters)
      else locate id (.single .eax)) fun _ => True := by
    split
    · refine (outputs_onSymbols _).respects.bind fun zero _ => ?_
      exact respects_locate issued (Operand.proper_imm zero)
    split
    · exact respects_locate issued (Operand.proper_single (by decide))
    split
    · exact respects_locate issued (Operand.proper_pair (by decide) (by decide))
    split
    · exact Respects.throw rfl
    · exact respects_locate issued (Operand.proper_single (by decide))
  dsimp only
  split
  · refine (outputs_onSymbols _).respects.bind fun bytes _ => ?_
    exact (outputs_emit' _).respects.bind fun _ _ => last
  · exact last

theorem respects_selectEffect : Respects n (selectEffect Gen.select id) fun _ => True := by
  unfold selectEffect
  refine (respects_node id).bind fun v _ => ?_
  split
  · exact respects_selectAssign issued
  · exact respects_selectCall issued
  · exact Respects.throw rfl

theorem respects_pushArg : Respects n (pushArg Gen.select id) fun _ => True := by
  unfold pushArg
  refine (respects_node id).bind fun v _ => ?_
  refine (serves_select id n _ issued).bind fun op _ => ?_
  exact (outputs_lookup _ _).respects.bind fun _ _ => (outputs_emit' _).respects

theorem respects_returnValue : Respects n (returnValue Gen.select id) fun _ => True := by
  unfold returnValue
  refine (respects_node id).bind fun v _ => ?_
  dsimp only
  split
  · exact .pure trivial
  refine (serves_select id n _ issued).bind fun op proper => ?_
  split
  · exact .pure trivial
  have last (op : Operand) : Respects n (do
      hold op
      (returnOperand v.ty).regs.forM free
      release op
      moveTo v.ty.valueClass (returnOperand v.ty) op) fun _ => True := by
    refine (respects_hold op).bind fun _ _ => ?_
    refine (Keeps.forM fun r _ => respects_free r).bind fun _ _ => ?_
    exact (respects_release op).bind fun _ _ => respects_moveTo _ _ _
  split
  · exact (respects_toMemory issued).bind fun op _ => last op
  · exact last op

theorem respects_selectZeroFill (bytes : Nat) :
    Respects n (selectZeroFill Gen.select id bytes) fun _ => True := by
  unfold selectZeroFill
  refine (serves_select id n _ issued).bind fun op _ => ?_
  exact (respects_derefAddress op).bind fun _ _ => (outputs_emit' _).respects

end Codes

theorem respects_selectJump (target : Symbol) : Respects n (selectJump target) fun _ => True :=
  respects_flushRegisters.bind fun _ _ => (outputs_emit' _).respects

theorem respects_selectLabel (label : Symbol) : Respects n (selectLabel label) fun _ => True :=
  respects_flushRegisters.bind fun _ _ => (outputs_emit' _).respects

end CBackend.Gen

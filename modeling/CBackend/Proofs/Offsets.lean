import CBackend.SymbolTable

/-!
The frame offsets that symbols carry. Everything else in a symbol table stays the same when an
offset is recorded, and no constant is found or entered differently because of one.
-/

namespace CBackend

def SymbolEntry.bare (e : SymbolEntry) : SymbolEntry := { e with offset := none }

namespace SymbolTable

def bare (t : SymbolTable) : SymbolTable := { t with entries := t.entries.map SymbolEntry.bare }

variable {t u : SymbolTable} {p q : Symbol}

theorem entry_bare (t : SymbolTable) (s : Symbol) : t.bare.entry s = (t.entry s).bare := by
  simp only [entry, bare, Array.getD_eq_getD_getElem?, Array.getElem?_map]
  cases t.entries[s.index]? <;> rfl

theorem kind_bare (t : SymbolTable) (s : Symbol) : t.bare.kind s = t.kind s := by
  rw [kind, entry_bare]
  rfl

theorem ty_bare (t : SymbolTable) (s : Symbol) : t.bare.ty s = t.ty s := by
  rw [ty, entry_bare]
  rfl

theorem name_bare (t : SymbolTable) (s : Symbol) : t.bare.name s = t.name s := by
  rw [name, entry_bare]
  rfl

theorem size_bare (t : SymbolTable) : t.bare.size = t.size := Array.size_map

theorem entry_setOffset (t : SymbolTable) (p q : Symbol) (offset : Int) :
    (t.setOffset p offset).entry q =
      if p = q ∧ p.index < t.size then { t.entry q with offset := some offset } else t.entry q := by
  have same : p = q ↔ p.index = q.index := ⟨congrArg _, fun same => congrArg Symbol.mk same⟩
  simp only [entry, setOffset, size, Array.getD_eq_getD_getElem?, Array.getElem?_modify, same]
  by_cases index : p.index = q.index
  · rw [index]
    cases found : t.entries[q.index]? with
    | none =>
      have outside : ¬ q.index < t.entries.size := by simpa using found
      simp [outside]
    | some e =>
      have inside : q.index < t.entries.size := (Array.getElem?_eq_some_iff.mp found).1
      simp [inside]
  · simp [index]

@[simp] theorem ty_setOffset (offset : Int) : (t.setOffset p offset).ty q = t.ty q := by
  rw [ty, entry_setOffset]
  split <;> rfl

theorem offset_setOffset (known : p.index < t.size) (offset : Int) :
    (t.setOffset p offset).offset p = some offset := by
  rw [SymbolTable.offset, entry_setOffset, if_pos ⟨rfl, known⟩]

theorem offset_setOffset_of_ne (other : q ≠ p) (offset : Int) :
    (t.setOffset p offset).offset q = t.offset q := by
  rw [SymbolTable.offset, entry_setOffset, if_neg fun ⟨same, _⟩ => other same.symm]
  rfl

theorem bare_setOffset (t : SymbolTable) (p : Symbol) (offset : Int) :
    (t.setOffset p offset).bare = t.bare := by
  have each (i : Nat) : (t.setOffset p offset).bare.entries[i]? = t.bare.entries[i]? := by
    simp only [bare, setOffset, Array.getElem?_map, Array.getElem?_modify]
    split
    · cases t.entries[i]? <;> rfl
    · rfl
  exact congrArg (fun entries => { t with entries }) (Array.ext_getElem? each)

theorem find?_bare (t : SymbolTable) (kind : SymbolKind) (ty : CType) :
    t.bare.find? kind ty = t.find? kind ty := by
  simp only [find?, bare, Array.findIdx?_map]
  rfl

theorem bare_push (t : SymbolTable) (name : String) (kind : SymbolKind) (ty : CType) :
    t.bare.push name kind ty = ((t.push name kind ty).1, (t.push name kind ty).2.bare) := by
  simp [push, bare, size, SymbolEntry.bare]

theorem bare_intern (t : SymbolTable) (name : String) (kind : SymbolKind) (ty : CType) :
    t.bare.intern name kind ty = ((t.intern name kind ty).1, (t.intern name kind ty).2.bare) := by
  unfold intern
  rw [find?_bare]
  cases t.find? kind ty with
  | none => exact bare_push t name kind ty
  | some s => rfl

theorem entry_intern (t : SymbolTable) (name : String) (kind : SymbolKind) (ty : CType)
    (s : Symbol) : (t.intern name kind ty).2.entry s = t.entry s ∨
      (t.intern name kind ty).2.entry s = ⟨name, kind, ty, none⟩ ∧ t.entry s = default := by
  unfold intern
  cases t.find? kind ty with
  | some _ => exact .inl rfl
  | none =>
    simp only [push, entry, Array.getD_eq_getD_getElem?, Array.getElem?_push]
    split
    · rename_i last
      refine .inr ⟨rfl, ?_⟩
      rw [last, Array.getElem?_eq_none (Nat.le_refl _)]
      rfl
    · exact .inl rfl

theorem offset_intern (t : SymbolTable) (name : String) (kind : SymbolKind) (ty : CType)
    (s : Symbol) : (t.intern name kind ty).2.offset s = t.offset s := by
  rcases t.entry_intern name kind ty s with same | ⟨new, old⟩
  · rw [offset, same, offset]
  · rw [offset, new, offset, old]
    rfl

theorem isFrameResident_intern (t : SymbolTable) (name : String) {kind : SymbolKind} (ty : CType)
    (elsewhere : kind ≠ .param ∧ kind ≠ .local ∧ kind ≠ .temp) (s : Symbol) :
    (t.intern name kind ty).2.isFrameResident s = t.isFrameResident s := by
  rcases t.entry_intern name kind ty s with same | ⟨new, old⟩
  · rw [isFrameResident, SymbolTable.kind, same, isFrameResident, SymbolTable.kind]
  · have before : t.kind s = .global := by
      rw [SymbolTable.kind, old]
      rfl
    have after : (t.intern name kind ty).2.kind s = kind := by rw [SymbolTable.kind, new]
    rw [isFrameResident, after, isFrameResident, before]
    cases kind <;> simp_all

theorem isFrameResident_setOffset (t : SymbolTable) (p : Symbol) (offset : Int) (s : Symbol) :
    (t.setOffset p offset).isFrameResident s = t.isFrameResident s := by
  have same : (t.setOffset p offset).kind s = t.kind s := by
    rw [← kind_bare, bare_setOffset, kind_bare]
  rw [isFrameResident, same, isFrameResident]

/-- Tables that differ at most in the offsets of symbols that are not known. -/
structure Alike (known : Symbol → Prop) (t u : SymbolTable) : Prop where
  bare : u.bare = t.bare
  offset : ∀ s, known s → u.offset s = t.offset s

variable {known known' : Symbol → Prop}

theorem Alike.refl (known : Symbol → Prop) (t : SymbolTable) : Alike known t t :=
  ⟨rfl, fun _ _ => rfl⟩

theorem alike_bare (t : SymbolTable) : Alike (fun _ => False) t t.bare where
  bare := by
    have twice : SymbolEntry.bare ∘ SymbolEntry.bare = SymbolEntry.bare := rfl
    simp only [SymbolTable.bare, Array.map_map, twice]
  offset _ none := none.elim

theorem Alike.weaken (alike : Alike known t u) (fewer : ∀ s, known' s → known s) :
    Alike known' t u :=
  ⟨alike.bare, fun s inside => alike.offset s (fewer s inside)⟩

theorem Alike.kind (alike : Alike known t u) (s : Symbol) : u.kind s = t.kind s := by
  rw [← kind_bare, alike.bare, kind_bare]

theorem Alike.name (alike : Alike known t u) (s : Symbol) : u.name s = t.name s := by
  rw [← name_bare, alike.bare, name_bare]

theorem Alike.ty (alike : Alike known t u) (s : Symbol) : u.ty s = t.ty s := by
  rw [← ty_bare, alike.bare, ty_bare]

theorem Alike.isFrameResident (alike : Alike known t u) (s : Symbol) :
    u.isFrameResident s = t.isFrameResident s := by
  rw [SymbolTable.isFrameResident, alike.kind, SymbolTable.isFrameResident]

theorem Alike.intern (alike : Alike known t u) (name : String) (kind : SymbolKind) (ty : CType) :
    (u.intern name kind ty).1 = (t.intern name kind ty).1 ∧
      Alike known (t.intern name kind ty).2 (u.intern name kind ty).2 := by
  have both := u.bare_intern name kind ty
  rw [alike.bare, bare_intern, Prod.mk.injEq] at both
  refine ⟨both.1.symm, both.2.symm, fun s inside => ?_⟩
  rw [offset_intern, offset_intern, alike.offset s inside]

theorem Alike.setOffset (alike : Alike known t u) (p : Symbol) (offset : Int) :
    Alike (fun s => known s ∨ s = p) (t.setOffset p offset) (u.setOffset p offset) where
  bare := by rw [bare_setOffset, bare_setOffset, alike.bare]
  offset s inside := by
    have size : u.size = t.size := by rw [← size_bare, alike.bare, size_bare]
    by_cases same : s = p
    · subst same
      rw [SymbolTable.offset, SymbolTable.offset, entry_setOffset, entry_setOffset, size]
      split
      · rfl
      · rename_i outside
        have none (t : SymbolTable) (absent : ¬ s.index < t.size) : t.entry s = default := by
          rw [entry, Array.getD_eq_getD_getElem?, Array.getElem?_eq_none (Nat.le_of_not_lt absent)]
          rfl
        have absent : ¬ s.index < t.size := fun there => outside ⟨rfl, there⟩
        rw [none t absent, none u (size ▸ absent)]
    · rw [offset_setOffset_of_ne same, offset_setOffset_of_ne same]
      exact alike.offset s (inside.resolve_right same)

end SymbolTable

end CBackend

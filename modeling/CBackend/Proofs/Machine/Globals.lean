import Mathlib.Data.List.Induction
import CBackend.Proofs.Machine.Widths

/-!
Global variables as cells. The layout gives each global slots of its own, one behind the other from
the first address on; so what is written to one is read from it, in its type, until the next write
to it, and no write touches a byte outside the global that is written.
-/

namespace CBackend

namespace Layout

variable {symbols : SymbolTable} {gs : List Symbol} {next a b : Nat} {g h : Symbol}

theorem lookup_placeGlobals_cons (first : Symbol) :
    (placeGlobals symbols next (first :: gs)).lookup g =
      if g = first then some next
      else (placeGlobals symbols (next + roundToSlot (symbols.ty first).size) gs).lookup g := by
  rw [placeGlobals, List.lookup_cons]
  by_cases same : g = first
  · rw [if_pos same, beq_iff_eq.mpr same]
  · rw [if_neg same, beq_false_of_ne same]

theorem exists_lookup (listed : g ∈ gs) : ∃ a, (placeGlobals symbols next gs).lookup g = some a := by
  induction gs generalizing next with
  | nil => cases listed
  | cons first rest ih =>
    rw [lookup_placeGlobals_cons]
    by_cases same : g = first
    · exact ⟨next, if_pos same⟩
    · rw [if_neg same]
      exact ih ((List.mem_cons.mp listed).resolve_left same)

theorem le_of_lookup (found : (placeGlobals symbols next gs).lookup g = some a) : next ≤ a := by
  induction gs generalizing next with
  | nil => cases found
  | cons first rest ih =>
    rw [lookup_placeGlobals_cons] at found
    split at found
    · exact Nat.le_of_eq (Option.some.inj found)
    · exact Nat.le_trans (Nat.le_add_right _ _) (ih found)

theorem apart_of_lookup (other : g ≠ h)
    (found : (placeGlobals symbols next gs).lookup g = some a)
    (found' : (placeGlobals symbols next gs).lookup h = some b) :
    a + roundToSlot (symbols.ty g).size ≤ b ∨ b + roundToSlot (symbols.ty h).size ≤ a := by
  induction gs generalizing next with
  | nil => cases found
  | cons first rest ih =>
    rw [lookup_placeGlobals_cons] at found found'
    split at found <;> split at found'
    · simp_all
    · cases found
      left
      subst first
      exact le_of_lookup found'
    · cases found'
      right
      subst first
      exact le_of_lookup found
    · exact ih found found'

def Fits (l : Layout) : Prop := ∀ e ∈ l.globals, e.2 + (l.symbols.ty e.1).size ≤ Memory.size

instance (l : Layout) : Decidable l.Fits :=
  inferInstanceAs (Decidable (∀ e ∈ l.globals, e.2 + (l.symbols.ty e.1).size ≤ Memory.size))

theorem Fits.inside (fits : (ofSymbols symbols).Fits)
    (found : (ofSymbols symbols).globalAddress? g = some a) :
    a + (symbols.ty g).size ≤ Memory.size := by
  obtain ⟨before, after, split, -⟩ := List.lookup_eq_some_iff.mp found
  exact fits (g, a) (by rw [split]; simp)

theorem apart_of_globalAddress? (other : g ≠ h)
    (found : (ofSymbols symbols).globalAddress? g = some a)
    (found' : (ofSymbols symbols).globalAddress? h = some b) :
    a + (symbols.ty g).size ≤ b ∨ b + (symbols.ty h).size ≤ a := by
  have first := le_roundToSlot (symbols.ty g).size
  have second := le_roundToSlot (symbols.ty h).size
  have := apart_of_lookup other found found'
  omega

end Layout

theorem Memory.read_write_outside {m : Memory} {a b n : Nat} {bytes : List Byte}
    (inside : a + bytes.length ≤ size) (inside' : b + n ≤ size)
    (apart : a + bytes.length ≤ b ∨ b + n ≤ a) : (m.write a bytes).read b n = m.read b n := by
  apply read_congr
  intro i bound
  exact get_write_outside inside (by omega) (by omega)

theorem Memory.ofBytes_read_zeros (a n : Nat) : ofBytes (read {} a n) = 0 := by
  induction n generalizing a with
  | zero => rfl
  | succ n ih =>
    rw [read, ofBytes, ih]
    rfl

theorem CType.width_of_isInteger {ty : CType} (integer : ty.isInteger = true) :
    ty.valueClass.width = ty.size :=
  ty.width_valueClass (by cases ty <;> first | rfl | cases integer)

/-- The word that a type makes of a word: its low bytes, extended as the type says. -/
def CType.convert (ty : CType) (w : Word) : Word :=
  ty.valueClass.word (w.setWidth ty.valueClass.bits)

def Machine.setMemory {W : Type} (m : Machine W) (memory : Memory) : Machine W :=
  { m with cpu := { m.cpu with memory } }

namespace RunM

variable {W : Type} {m : Machine W} {symbols : SymbolTable} {g h : Symbol} {a : Nat}

theorem readGlobal_run (layout : m.layout = .ofSymbols symbols)
    (found : (Layout.ofSymbols symbols).globalAddress? g = some a)
    (integer : (symbols.ty g).isInteger = true) (inside : a + (symbols.ty g).size ≤ Memory.size) :
    readGlobal g m =
      .ok (Exec.decode (m.cpu.memory.read a (symbols.ty g).size) (symbols.ty g).valueClass) m := by
  have proper := Exec.width_ne_zero (CType.isInteger_valueClass integer)
  rw [← CType.width_of_isInteger integer] at inside ⊢
  refine (bind_run (x := get) rfl).trans (onCpu_run ?_)
  rw [layout, Layout.globalAddress, found]
  exact Exec.readMemory_run proper inside

theorem writeGlobal_run (layout : m.layout = .ofSymbols symbols)
    (found : (Layout.ofSymbols symbols).globalAddress? g = some a)
    (integer : (symbols.ty g).isInteger = true) (inside : a + (symbols.ty g).size ≤ Memory.size)
    (w : Word) :
    writeGlobal g (.int w) m =
      .ok () (m.setMemory
        (m.cpu.memory.write a (Exec.encode (.int w) (symbols.ty g).valueClass))) := by
  have proper := CType.isInteger_valueClass integer
  refine (bind_run (x := get) rfl).trans (onCpu_run ?_)
  rw [layout, Layout.globalAddress, found]
  apply Exec.writeMemory_run (Exec.width_ne_zero proper)
  rw [Exec.length_encode proper, CType.width_of_isInteger integer]
  exact inside

def writeGlobals (writes : List (Symbol × Word)) : RunM W Unit :=
  forM writes fun e => writeGlobal e.1 (.int e.2)

/-- The word last written to a global, zero if there is none. -/
def latest (writes : List (Symbol × Word)) (g : Symbol) : Word := (writes.reverse.lookup g).getD 0

theorem latest_append (writes : List (Symbol × Word)) (g : Symbol) (w : Word) :
    latest (writes ++ [(g, w)]) h = if h = g then w else latest writes h := by
  simp only [latest, List.reverse_append, List.reverse_singleton, List.singleton_append,
    List.lookup_cons]
  by_cases same : h = g
  · rw [if_pos same, beq_iff_eq.mpr same]
    rfl
  · rw [if_neg same, beq_false_of_ne same]

/-- The integer globals of a machine hold words, each converted to the type of its global. -/
structure Holds (symbols : SymbolTable) (m : Machine W) (cells : Symbol → Word) : Prop where
  layout : m.layout = .ofSymbols symbols
  cell : ∀ g a, (Layout.ofSymbols symbols).globalAddress? g = some a →
    (symbols.ty g).isInteger = true →
      Exec.decode (m.cpu.memory.read a (symbols.ty g).size) (symbols.ty g).valueClass =
        .int ((symbols.ty g).convert (cells g))

theorem holds_init (symbols : SymbolTable) (world : W) :
    Holds symbols (Machine.init symbols world) fun _ => 0 := by
  refine ⟨rfl, ?_⟩
  intro g a _ integer
  rw [Exec.decode_integer (CType.isInteger_valueClass integer)]
  simp only [Machine.init, Cpu.init, Memory.ofBytes_read_zeros, CType.convert]
  rfl

theorem Holds.write {cells : Symbol → Word} (holds : Holds symbols m cells)
    (fits : (Layout.ofSymbols symbols).Fits)
    (found : (Layout.ofSymbols symbols).globalAddress? g = some a)
    (integer : (symbols.ty g).isInteger = true) (w : Word) :
    ∃ memory, writeGlobal g (.int w) m = .ok () (m.setMemory memory) ∧
      (∀ n < Memory.size, n < a ∨ a + (symbols.ty g).size ≤ n →
        memory.get n = m.cpu.memory.get n) ∧
      Holds symbols (m.setMemory memory) fun h => if h = g then w else cells h := by
  have inside := fits.inside found
  have proper := CType.isInteger_valueClass integer
  have width := CType.width_of_isInteger integer
  have size := Exec.length_encode proper (.int w)
  rw [width] at size
  refine ⟨_, writeGlobal_run holds.layout found integer inside w, ?_, holds.layout, ?_⟩
  · intro n bound outside
    exact Memory.get_write_outside (by rw [size]; exact inside) bound (by rw [size]; exact outside)
  · intro h b found' integer'
    by_cases same : h = g
    · subst same
      cases found.symm.trans found'
      rw [if_pos rfl, ← width]
      exact Exec.decode_written proper (by rw [width]; exact inside) w
    · have apart := Layout.apart_of_globalAddress? (Ne.symm same) found found'
      rw [if_neg same, ← holds.cell h b found' integer']
      change Exec.decode ((m.cpu.memory.write a _).read b _) _ = _
      rw [Memory.read_write_outside (by rw [size]; exact inside) (fits.inside found')
        (by rw [size]; exact apart)]

theorem Holds.readGlobal {cells : Symbol → Word} (holds : Holds symbols m cells)
    (fits : (Layout.ofSymbols symbols).Fits)
    (found : (Layout.ofSymbols symbols).globalAddress? g = some a)
    (integer : (symbols.ty g).isInteger = true) :
    readGlobal g m = .ok (.int ((symbols.ty g).convert (cells g))) m := by
  rw [readGlobal_run holds.layout found integer (fits.inside found), holds.cell g a found integer]

theorem holds_latest (world : W) (fits : (Layout.ofSymbols symbols).Fits)
    (writes : List (Symbol × Word))
    (proper : ∀ e ∈ writes, e.1 ∈ symbols.globals ∧ (symbols.ty e.1).isInteger = true) :
    ∃ m, writeGlobals writes (Machine.init symbols world) = .ok () m ∧
      Holds symbols m (latest writes) := by
  induction writes using List.reverseRecOn with
  | nil => exact ⟨_, rfl, holds_init symbols world⟩
  | append_singleton writes e ih =>
    obtain ⟨g, w⟩ := e
    obtain ⟨m, before, holds⟩ := ih fun e inside => proper e (List.mem_append_left _ inside)
    obtain ⟨listed : g ∈ symbols.globals, integer⟩ := proper (g, w) (by simp)
    obtain ⟨a, found⟩ := Layout.exists_lookup listed
    obtain ⟨memory, wrote, -, holds⟩ := holds.write fits found integer w
    refine ⟨m.setMemory memory, ?_, ?_⟩
    · rw [writeGlobals, List.forM_append]
      apply (bind_run before).trans
      exact bind_run wrote
    · have cells : latest (writes ++ [(g, w)]) = fun h => if h = g then w else latest writes h :=
        funext fun _ => latest_append writes g w
      rw [cells]
      exact holds

/-- Globals are independent cells. Whatever integers are written to globals of integer and
pointer types, in any order, every write succeeds and each global reads as the value last written to
it, converted to its type, or zero. A further write changes bytes of its own global only and nothing
else of the machine. Each global lies at or above the first address, and no two overlap. -/
theorem globals_independent (symbols : SymbolTable) (world : W)
    (fits : (Layout.ofSymbols symbols).Fits) (writes : List (Symbol × Word))
    (proper : ∀ e ∈ writes, e.1 ∈ symbols.globals ∧ (symbols.ty e.1).isInteger = true) :
    (∃ m, writeGlobals writes (Machine.init symbols world) = .ok () m ∧
      ∀ g ∈ symbols.globals, (symbols.ty g).isInteger = true →
        RunM.readGlobal g m = .ok (.int ((symbols.ty g).convert (latest writes g))) m ∧
        ∀ w, ∃ a memory, (Layout.ofSymbols symbols).globalAddress? g = some a ∧
          writeGlobal g (.int w) m = .ok () (m.setMemory memory) ∧
          ∀ n < Memory.size, n < a ∨ a + (symbols.ty g).size ≤ n →
            memory.get n = m.cpu.memory.get n) ∧
    (∀ g ∈ symbols.globals, ∃ a,
      (Layout.ofSymbols symbols).globalAddress? g = some a ∧ Layout.globalBase ≤ a) ∧
    ∀ g h a b, g ≠ h → (Layout.ofSymbols symbols).globalAddress? g = some a →
      (Layout.ofSymbols symbols).globalAddress? h = some b →
        a + (symbols.ty g).size ≤ b ∨ b + (symbols.ty h).size ≤ a := by
  refine ⟨?_, ?_, ?_⟩
  · obtain ⟨m, ran, holds⟩ := holds_latest world fits writes proper
    refine ⟨m, ran, ?_⟩
    intro g listed integer
    obtain ⟨a, found⟩ := Layout.exists_lookup listed
    refine ⟨holds.readGlobal fits found integer, fun w => ?_⟩
    obtain ⟨memory, wrote, outside, -⟩ := holds.write fits found integer w
    exact ⟨a, memory, found, wrote, outside⟩
  · intro g listed
    obtain ⟨a, found⟩ := Layout.exists_lookup listed
    exact ⟨a, found, Layout.le_of_lookup found⟩
  · intro g h a b other found found'
    exact Layout.apart_of_globalAddress? other found found'

/-- A table with globals of several sizes between symbols of other kinds. -/
def mixed : SymbolTable where
  entries := #[⟨"f", .function, .int, none⟩, ⟨"c", .global, .char, none⟩, ⟨"x", .local, .int, none⟩,
    ⟨"s", .global, .struct 6, none⟩, ⟨"n", .global, .llong, none⟩, ⟨"p", .global, .pointer, none⟩]

/-- The second write to a character is kept as a character, beside the other globals. -/
theorem mixed_independent :
    ∃ m, writeGlobals [(⟨1⟩, 300), (⟨4⟩, -5), (⟨1⟩, 200)] (Machine.init mixed ()) = .ok () m ∧
      RunM.readGlobal ⟨1⟩ m = .ok (.int (-56)) m ∧ RunM.readGlobal ⟨4⟩ m = .ok (.int (-5)) m ∧
      RunM.readGlobal ⟨5⟩ m = .ok (.int 0) m := by
  obtain ⟨⟨m, ran, cells⟩, -⟩ := globals_independent mixed () (by decide)
    [(⟨1⟩, 300), (⟨4⟩, -5), (⟨1⟩, 200)] (by decide)
  exact ⟨m, ran, (cells ⟨1⟩ (by decide) rfl).1, (cells ⟨4⟩ (by decide) rfl).1,
    (cells ⟨5⟩ (by decide) rfl).1⟩

end RunM

end CBackend

import Mathlib
import FunRiscv.Proofs.Surface.Definitions
import FunRiscv.Proofs.Surface.Loops
import FunRiscv.Proofs.Surface.Recursion

/-!
# Reading ends

Every text is read to an end, and no bound of the reader is ever met.

* `Part`: the parts of the grammar. `Part.lands`: a part that is read takes at least one byte.
* `Loop`, `ByteLoop`: the loops. `Loop.ends`, `ByteLoop.scans`: each of them ends as it does without
  a bound, since a round that goes on gets further in the text.
* `Terminates`, `Program.parse_terminates`: all this of a whole text, and that the rules ask for
  nested parts at later positions only.
-/

namespace FunRiscv

namespace Reading

variable {src : Source} {i : Nat}

/-! ### Parts -/

/-- The parts of the grammar. What some of them read may be nothing: a list of fields may be empty,
and what stands here may not be an argument given by name. -/
inductive Part (src : Source) : {α : Type} → Reading α → (something : α → Prop) → Prop
  | nonterminal (k : Nonterminal) : Part src (tree src k) fun _ => True
  | typeAtom : Part src (typeAtom src (tree src)) fun _ => True
  | param : Part src (param src (tree src)) fun _ => True
  | params : Part src (params src (tree src)) fun _ => True
  | level (levels : List (List Operator)) : Part src (binary src (tree src) levels) fun _ => True
  | postfixed : Part src (postfixed src (tree src)) fun _ => True
  | primary : Part src (primary src (tree src)) fun _ => True
  | braced : Part src (braced src (tree src)) fun _ => True
  | case : Part src (matchCase src (tree src)) fun _ => True
  | namedArg : Part src (namedArg? src (tree src)) fun a => a.isSome = true
  | arguments (named : Bool) : Part src (arguments src (tree src) (rounds src) named) fun _ => True
  | fieldName : Part src (fieldName src) fun _ => True
  | stmt : Part src (stmt src (tree src)) fun _ => True
  | name : Part src (name src) fun _ => True
  | field : Part src (field src) fun _ => True
  | fields : Part src (fields src (rounds src)) fun fs => fs ≠ []
  | variant (owner : String) : Part src (variant src owner) fun _ => True
  | objectMembers : Part src (objectMembers src) fun g => g.1 ≠ [] ∨ g.2 ≠ []
  | objectGroup (n : String) : Part src (objectGroup src n) fun _ => True
  | member : Part src (member src) fun _ => True
  | definition : Part src (definition src) fun _ => True
  | importTail (start : Nat) : Part src (importTail src start) fun _ => True
  | inContext {α : Type} {act : Reading α} {something : α → Prop} (label : String)
    (h : Part src act something) : Part src (inContext label act) something

/-- A part takes at least one byte of the text, if it reads something. -/
theorem Part.lands {α : Type} {act : Reading α} {something : α → Prop} (h : Part src act something)
    (i : Nat) : Lands src act i fun a j => something a → i < j := by
  have always : ∀ {β : Type} {act : Reading β}, Advances src act i →
    Lands src act i fun _ j => True → i < j :=
    fun h => h.mono fun _ _ hlt _ => hlt
  have htree : SubAdvances src (tree src) (i + 1) := lands_tree (i + 1)
  induction h with
  | nonterminal k => exact always (lands_tree i k i le_rfl)
  | typeAtom => exact always (lands_typeAtom htree)
  | param => exact always (lands_param htree)
  | params => exact always (lands_params htree)
  | level levels => exact always (lands_binary levels htree)
  | postfixed => exact always (lands_postfixed htree)
  | primary => exact always (lands_primary htree)
  | braced => exact always (lands_braced (lands_tree i))
  | case => exact always (lands_matchCase (lands_tree i))
  | namedArg => exact (lands_namedArg? (lands_tree i)).mono fun a j hj ha => by simpa [ha] using hj
  | arguments named => exact always (lands_arguments (lands_tree i) (fuel_lt i))
  | fieldName => exact always lands_fieldName
  | stmt => exact always (lands_stmt (lands_tree i))
  | name => exact always lands_name
  | field => exact always lands_field
  | fields => exact (lands_fields (fuel_lt i)).mono fun _ _ hj => hj.2
  | variant owner => exact always lands_variant
  | objectMembers => exact lands_objectMembers.mono fun _ _ hj => hj.2
  | objectGroup n => exact always lands_group
  | member => exact always lands_member
  | definition => exact always lands_definition
  | importTail start => exact always lands_importTail
  | inContext label _ ih => exact ih.inContext label

theorem Part.advances {α : Type} {act : Reading α} (h : Part src act fun _ => True) (i : Nat) :
    Advances src act i :=
  (h.lands i).mono fun _ _ hlt => hlt trivial

/-! ### Loops -/

/-- The loops of the grammar: what one round does, and what is read from a state on. -/
inductive Loop (src : Source) : {σ β : Type} → (σ → Reading (σ ⊕ β)) → (σ → Reading β) → Prop
  | comma {α : Type} {item : Reading α} (h : Part src item fun _ => True) :
      Loop src (commaRound src item) fun xs => (xs ++ ·) <$> commaList src item (rounds src)
  | closed {α : Type} {item : Reading α} (close : Punct) (h : Part src item fun _ => True) :
      Loop src (closedRound src item close) fun xs =>
        (xs ++ ·) <$> closedList src item close (rounds src)
  | many {α : Type} {item : Reading α} (close : Punct) (h : Part src item fun _ => True) :
      Loop src (manyRound src item close) fun xs =>
        (xs ++ ·) <$> manyUntil src item close (rounds src)
  | arguments : Loop src (argumentRound src (tree src)) fun s =>
      (fun r => (s.1 ++ r.1, s.2 ++ r.2)) <$> arguments src (tree src) (rounds src) (!s.2.isEmpty)
  | postfixes (start : Nat) :
    Loop src (postfixRound src (tree src) start) (postfixes src (tree src) start (rounds src))
  | operands (ops : List Operator) (tighter : List (List Operator)) (start : Nat) :
      Loop src (operandRound src (binary src (tree src) tighter) ops start)
        (operands src (binary src (tree src) tighter) ops start (rounds src))
  | fields : Loop src (fieldRound src) fun fs => (fs ++ ·) <$> fields src (rounds src)
  | items : Loop src (itemRound src) fun p => joined p <$> items src (rounds src)

theorem Loop.ends {σ β : Type} {round : σ → Reading (σ ⊕ β)} {run : σ → Reading β}
    (h : Loop src round run) (s : σ) (hi : i ≤ src.size) : Ends src round s i (run s i) := by
  cases h with
  | comma h => exact ends_commaList (fun j _ => h.advances j) hi (fuel_lt i) s
  | closed close h => exact ends_closedList (fun j _ => h.advances j) hi (fuel_lt i) close s
  | many close h => exact ends_manyUntil (fun j _ => h.advances j) hi (fuel_lt i) close s
  | arguments => exact ends_arguments (lands_tree i) hi (fuel_lt i) s
  | postfixes start => exact ends_postfixes (lands_tree i) hi (fuel_lt i) start s
  | operands ops tighter start =>
    exact ends_operands (fun j _ => lands_binary tighter (lands_tree _)) hi (fuel_lt i) ops start s
  | fields => exact ends_fields hi (fuel_lt i) s
  | items => exact ends_items hi (fuel_lt i) s

/-- The loops over bytes: in which direction they go, what one round does, and what
comes of the loop. -/
inductive ByteLoop (src : Source) :
    {β : Type} → (Nat → Nat → Prop) → (Nat → Look (Nat ⊕ β)) → (Nat → Look β) → Prop
  | pass (p : UInt8 → Bool) : ByteLoop src (· < ·) (src.passRound p) (src.pass p)
  | skip : ByteLoop src (· < ·) src.skipRound src.skip
  | word : ByteLoop src (· < ·) src.wordRound fun i => src.wordWithin (src.size - i) i
  | quote : ByteLoop src (· < ·) src.quoteRound (quoteWithin src (src.size + 1))
  | comma : ByteLoop src (· > ·) src.commaRound (commaBefore src)

theorem ByteLoop.scans {β : Type} {after : Nat → Nat → Prop} {round : Nat → Look (Nat ⊕ β)}
    {run : Nat → Look β} (h : ByteLoop src after round run) (hi : i ≤ src.size) :
    ∃ b, run i = .ok b ∧ Source.Scans after round i b := by
  cases h with
  | pass p => exact src.scans_pass p hi
  | skip => exact src.scans_skip hi
  | word => exact src.scans_word hi
  | quote => exact src.scans_quote hi
  | comma => exact src.scans_comma hi

/-! ### Whole texts -/

/-- Reading the text ends. -/
structure Terminates (src : Source) : Prop where
  /-- A part that is read ends inside the text, and later than it began. -/
  parts : ∀ {α : Type} {act : Reading α} {something : α → Prop}, Part src act something →
    ∀ i a j, i ≤ src.size → act i = .ok (a, j) → j ≤ src.size ∧ (something a → i < j)
  /-- A loop ends without a bound, in one way, and each round that goes on has got further. -/
  loops : ∀ {σ β : Type} {round : σ → Reading (σ ⊕ β)} {run : σ → Reading β}, Loop src round run →
    ∀ s i, i ≤ src.size → ∀ out, Ends src round s i out ↔ out = run s i
  /-- So does a loop over bytes, and no look of it leaves the text. -/
  byteLoops : ∀ {β : Type} {after : Nat → Nat → Prop} {round : Nat → Look (Nat ⊕ β)}
    {run : Nat → Look β},
    ByteLoop src after round run →
      ∀ i, i ≤ src.size → ∃ b, run i = .ok b ∧ Source.Scans after round i b
  /-- The rules call each other, without a bound on the nesting. -/
  rules : ∀ k i, i ≤ src.size → tree src k i = rule src (tree src) k i
  /-- A bound on the nesting makes no difference, if it exceeds what is left of the text. -/
  depths : ∀ fuel k i, i ≤ src.size → src.size - i < fuel → nested src fuel k i = tree src k i
  /-- What a rule does at a position depends on no other rule at that position or an earlier one. -/
  calls : ∀ k i sub, i ≤ src.size → (∀ l j, i < j → j ≤ src.size → tree src l j = sub l j) →
    rule src (tree src) k i = rule src sub k i
  /-- The text as a whole is read by the loop over its items, and no bound was met. -/
  whole : ∃ out, Ends src (itemRound src) { imports := [], defs := [] } 0 out ∧
    Program.parse src = Prod.fst <$> out ∧ ∀ e, out = .error e → e.cause ≠ .exhausted

end Reading

open Reading

/-- Every text is read to an end. -/
theorem Program.parse_terminates (src : Source) : Terminates src where
  parts h i a j hi hok := by
    have hlands := h.lands i hi
    rwa [hok] at hlands
  loops h s _ hi out := ⟨fun hout => hout.unique (h.ends s hi), fun heq => heq ▸ h.ends s hi⟩
  byteLoops h _ hi := h.scans hi
  rules k _ hi := tree_eq_rule hi k
  depths _ k _ hi hfuel := nested_eq_tree hi hfuel k
  calls k i sub hi hsub := by
    refine agrees_rule ⟨lands_tree (i + 1), fun l j hj => ?_⟩ k hi
    exact fun hsize => hsub l j hj hsize
  whole := by
    have hjoined : joined { imports := [], defs := [] } = id := rfl
    have hends := ends_items (Nat.zero_le src.size) (fuel_lt 0) { imports := [], defs := [] }
    rw [hjoined, id_map] at hends
    refine ⟨_, hends, rfl, fun e he => ?_⟩
    have hlands := lands_items (fuel_lt 0) (Nat.zero_le src.size)
    rw [he] at hlands
    intro hcause
    have hsound : e.cause.Sound src := hlands
    rw [hcause] at hsound
    exact hsound

end FunRiscv

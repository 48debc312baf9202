import Mathlib
import FunRiscv.Surface.Source
import FunRiscv.Surface.Tree

/-!
# The spans of a tree

* `Source.lineFeeds`, `Source.lineStart`: lines counted on the bytes themselves.
* `Location.Fits`: a location is a span of the text that is not empty, with its true
  line and column.
* `SpanTree`: a tree of which only the locations are left, and the `spanTree` of every kind of node.
* `SpanTree.WellPlaced`: every location fits, children lie within their parent and
  apart from each other.
* `SpansBetween`: trees that lie apart from each other between two positions; `SpansBetween.node`
  makes one node of them.
-/

namespace FunRiscv

/-! ### Lines -/

namespace Source

variable (src : Source)

/-- The number of line feeds before a position. -/
def lineFeeds (i : Nat) : Nat := (List.range i).countP fun k => src.byte? k == some 10

/-- Where the line of a position starts: after the last line feed before it. -/
def lineStart : Nat → Nat
  | 0 => 0
  | i + 1 => if src.byte? i == some 10 then i + 1 else lineStart i

/-- The starts of the lines that start after a line feed before a position. -/
def laterLines (i : Nat) : List Nat :=
  ((List.range i).filter fun k => src.byte? k == some 10).map (· + 1)

theorem length_laterLines (i : Nat) : (src.laterLines i).length = src.lineFeeds i := by
  rw [laterLines, List.length_map, lineFeeds, List.countP_eq_length_filter]

theorem getLastD_laterLines (i : Nat) : (src.laterLines i).getLastD 0 = src.lineStart i := by
  induction i with
  | zero => rfl
  | succ i ih =>
    rw [laterLines, List.range_succ, List.filter_append, List.map_append, lineStart]
    cases hb : src.byte? i == some 10 with
    | true => simp [hb]
    | false => simpa [hb, laterLines] using ih

theorem toList_lineStarts : src.lineStarts.toList = 0 :: src.laterLines src.size := by
  rw [src.lineStarts_eq, lineStartsOf, laterLines]
  simp [byte?, size]

/-- No line feed at or after a position starts a line at or before it. -/
theorem toList_lineStarts_split {i : Nat} (h : i ≤ src.size) :
    ∃ later, src.lineStarts.toList = (0 :: src.laterLines i) ++ later ∧ ∀ k ∈ later, i < k := by
  obtain ⟨n, hn⟩ := Nat.exists_eq_add_of_le h
  refine ⟨(((List.range n).map (i + ·)).filter fun k => src.byte? k == some 10).map (· + 1), ?_, ?_⟩
  · rw [toList_lineStarts, laterLines, laterLines, hn, List.range_add, List.filter_append,
      List.map_append, List.cons_append]
  · simp only [List.mem_map, List.mem_filter]
    rintro _ ⟨_, ⟨⟨m, -, rfl⟩, -⟩, rfl⟩
    omega

theorem le_of_mem_laterLines {i k : Nat} (h : k ∈ src.laterLines i) : k ≤ i := by
  simp only [laterLines, List.mem_map, List.mem_filter, List.mem_range] at h
  obtain ⟨m, ⟨hm, -⟩, rfl⟩ := h
  exact hm

end Source

/-! ### Locations -/

/-- A location is a span of the source that is not empty, with the line and the column
of its first byte. -/
structure Location.Fits (src : Source) (l : Location) : Prop where
  pos_nonneg : 0 ≤ l.pos
  pos_lt_stop : l.pos < l.stop
  stop_le : l.stop ≤ src.size
  line_eq : l.line = src.lineFeeds l.pos.toNat + 1
  column_eq : l.column = l.pos - src.lineStart l.pos.toNat + 1

/-- One span lies in another. -/
def Location.Within (l m : Location) : Prop := m.pos ≤ l.pos ∧ l.stop ≤ m.stop

/-- Two spans have no byte in common. -/
def Location.Apart (l m : Location) : Prop := l.stop ≤ m.pos ∨ m.stop ≤ l.pos

theorem Location.Apart.symm {l m : Location} (h : l.Apart m) : m.Apart l := Or.symm h

namespace Source

variable (src : Source)

/-- The lines that start at or before a position are the first one and those after a
line feed before it. -/
theorem countP_lineStarts {i : Nat} (h : i ≤ src.size) :
    src.lineStarts.countP (· ≤ i) = src.lineFeeds i + 1 := by
  obtain ⟨later, hsplit, hlater⟩ := src.toList_lineStarts_split h
  have hnone : later.countP (fun k => decide (k ≤ i)) = 0 := by
    rw [List.countP_eq_zero]
    intro k hk
    simpa using hlater k hk
  have hall : (src.laterLines i).countP (fun k => decide (k ≤ i)) = (src.laterLines i).length := by
    rw [List.countP_eq_length]
    intro k hk
    simpa using src.le_of_mem_laterLines hk
  rw [← Array.countP_toList, hsplit, List.countP_append, List.countP_cons_of_pos (by simp), hall,
    hnone, length_laterLines]

theorem getD_lineStarts {i : Nat} (h : i ≤ src.size) :
    src.lineStarts[src.lineFeeds i]?.getD 0 = src.lineStart i := by
  obtain ⟨later, hsplit, -⟩ := src.toList_lineStarts_split h
  rw [← Array.getElem?_toList, hsplit, List.getElem?_append_left (by simp [length_laterLines]),
    ← getLastD_laterLines, ← length_laterLines]
  cases src.laterLines i with
  | nil => rfl
  | cons k ks => simp [List.getLastD_eq_getLast?, List.getLast?_eq_getElem?]

theorem fits_locate {i j : Nat} (h : i < j) (hj : j ≤ src.size) : (src.locate i j).Fits src where
  pos_nonneg := Int.natCast_nonneg i
  pos_lt_stop := Int.ofNat_lt.2 h
  stop_le := Int.ofNat_le.2 hj
  line_eq := by
    show ((src.lineStarts.countP (· ≤ i) : Nat) : Int) = _
    rw [src.countP_lineStarts (by omega)]
    rfl
  column_eq := by
    have hline : src.lineStarts.countP (· ≤ i) - 1 < src.lineStarts.size :=
      src.countP_lineStarts_lt _
    have hentry := src.getD_lineStarts (i := i) (by omega)
    have hcount : src.lineFeeds i = src.lineStarts.countP (· ≤ i) - 1 := by
      rw [src.countP_lineStarts (by omega), Nat.add_sub_cancel]
    rw [hcount, Array.getElem?_eq_getElem hline, Option.getD_some] at hentry
    show (i : Int) - (src.lineStarts[src.lineStarts.countP (· ≤ i) - 1] : Nat) + 1 = _
    rw [hentry]
    rfl

end Source

/-! ### Trees of locations -/

/-- A tree of which only the locations are left. -/
inductive SpanTree where
  | node (loc : Location) (parts : List SpanTree)

/-- The location of the root. -/
def SpanTree.loc : SpanTree → Location
  | node l _ => l

/-- Every location of the tree fits the source, children lie within their parents, and different
children of a node lie apart. -/
inductive SpanTree.WellPlaced (src : Source) : SpanTree → Prop
  | node {loc : Location} {parts : List SpanTree} (fits : loc.Fits src)
      (within : ∀ t ∈ parts, t.loc.Within loc) (apart : parts.Pairwise fun t u => t.loc.Apart u.loc)
      (parts_placed : ∀ t ∈ parts, WellPlaced src t) : WellPlaced src (.node loc parts)

theorem SpanTree.WellPlaced.fits {src : Source} {t : SpanTree} (h : t.WellPlaced src) :
    t.loc.Fits src := by
  cases h with
  | node fits => exact fits

/-- The locations of a type as written. -/
def TypeExpr.spanTree : TypeExpr → SpanTree
  | .name l _ args => .node l (args.map TypeExpr.spanTree)
  | .func l p r => .node l [p.spanTree, r.spanTree]
  | .tuple l ts => .node l (ts.map TypeExpr.spanTree)
  | .missing => .node {} []

/-- The locations of a parameter. -/
def Param.spanTree (p : Param) : SpanTree := .node p.loc (p.type.toList.map TypeExpr.spanTree)

mutual

/-- The locations of an expression. -/
def Expr.spanTree : Expr → SpanTree
  | .var l _ | .uint l _ | .int l _ | .float l _ | .str l _ | .bool l _ | .eraser l => .node l []
  | .tuple l es | .list l es => .node l (es.map Expr.spanTree)
  | .binOp l _ a b => .node l [a.spanTree, b.spanTree]
  | .call l f args named =>
    .node l (f.spanTree :: args.map Expr.spanTree ++ named.map NamedArg.spanTree)
  | .lambda l ps body => .node l (ps.map Param.spanTree ++ [body.spanTree])
  | .ifElse l c a b => .node l [c.spanTree, a.spanTree, b.spanTree]
  | .matchOn l x cases => .node l (x.spanTree :: cases.map Case.spanTree)
  | .access l x _ => .node l [x.spanTree]
  | .missing => .node {} []
termination_by e => sizeOf e
decreasing_by
  all_goals simp only [Expr.tuple.sizeOf_spec, Expr.list.sizeOf_spec, Expr.binOp.sizeOf_spec,
    Expr.call.sizeOf_spec, Expr.lambda.sizeOf_spec, Expr.ifElse.sizeOf_spec,
    Expr.matchOn.sizeOf_spec, Expr.access.sizeOf_spec]
  all_goals first
    | omega
    | have := List.sizeOf_lt_of_mem ‹_›
      omega

/-- The locations of an argument given by name. -/
def NamedArg.spanTree : NamedArg → SpanTree
  | .mk l _ e => .node l [e.spanTree]
termination_by a => sizeOf a
decreasing_by
  simp only [NamedArg.mk.sizeOf_spec]
  omega

/-- The locations of a match arm. -/
def Case.spanTree : Case → SpanTree
  | .mk l p e => .node l [p.spanTree, e.spanTree]
termination_by c => sizeOf c
decreasing_by
  all_goals simp only [Case.mk.sizeOf_spec]
  all_goals omega

/-- The locations of a pattern. -/
def Pattern.spanTree : Pattern → SpanTree
  | .var l _ | .wild l => .node l []
  | .lit l e => .node l [e.spanTree]
  | .cons l _ ps | .tuple l ps => .node l (ps.map Pattern.spanTree)
  | .missing => .node {} []
termination_by p => sizeOf p
decreasing_by
  all_goals simp only [Pattern.lit.sizeOf_spec, Pattern.cons.sizeOf_spec, Pattern.tuple.sizeOf_spec]
  all_goals first
    | omega
    | have := List.sizeOf_lt_of_mem ‹_›
      omega

end

theorem Expr.loc_spanTree (e : Expr) : e.spanTree.loc = e.loc := by
  cases e <;> simp [Expr.spanTree, SpanTree.loc, Expr.loc]

/-- The locations of a statement. The arms of a conditional are blocks, with locations
of their own. -/
def Stmt.spanTree : Stmt → SpanTree
  | .ret l e => .node l (e.toList.map Expr.spanTree)
  | .assign l _ t e => .node l (t.toList.map TypeExpr.spanTree ++ [e.spanTree])
  | .use l _ e | .expr l e => .node l [e.spanTree]
  | .ifThen l c la a => .node l [c.spanTree, .node la (a.map Stmt.spanTree)]
  | .ifElse l c la a lb b =>
    .node l [c.spanTree, .node la (a.map Stmt.spanTree), .node lb (b.map Stmt.spanTree)]
  | .missing => .node {} []

theorem Stmt.loc_spanTree (x : Stmt) : x.spanTree.loc = x.loc := by
  cases x <;> simp [Stmt.spanTree, SpanTree.loc, Stmt.loc]

def Block.spanTree (b : Block) : SpanTree := .node b.loc (b.stmts.map Stmt.spanTree)

def Field.spanTree (f : Field) : SpanTree := .node f.loc [f.type.spanTree]

def Variant.spanTree (v : Variant) : SpanTree := .node v.loc (v.fields.map Field.spanTree)

def FuncDef.spanTree (d : FuncDef) : SpanTree :=
  .node d.loc (d.params.map Param.spanTree ++ d.ret.toList.map TypeExpr.spanTree ++
    [d.body.spanTree])

def TypeDef.spanTree (d : TypeDef) : SpanTree := .node d.loc (d.variants.map Variant.spanTree)

def ObjectDef.spanTree (d : ObjectDef) : SpanTree :=
  .node d.loc (d.fields.map Field.spanTree ++ d.funcs.map FuncDef.spanTree)

def TypeAlias.spanTree (d : TypeAlias) : SpanTree := .node d.loc [d.type.spanTree]

/-- The locations of a definition. -/
def Definition.spanTree : Definition → SpanTree
  | .func d => d.spanTree
  | .type d => d.spanTree
  | .object d => d.spanTree
  | .alias d => d.spanTree
  | .module l _ ds => .node l (ds.map Definition.spanTree)

def Import.spanTree (i : Import) : SpanTree := .node i.loc []

/-- The locations of the imports and the definitions of a program, which has none of its own. -/
def Program.spanTrees (p : Program) : List SpanTree :=
  p.imports.map Import.spanTree ++ p.defs.map Definition.spanTree

/-! ### Trees between two positions -/

/-- The trees are well placed and lie apart from each other between two positions, in any order. -/
structure SpansBetween (src : Source) (i j : Nat) (ts : List SpanTree) : Prop where
  placed : ∀ t ∈ ts, t.WellPlaced src
  low : ∀ t ∈ ts, (i : Int) ≤ t.loc.pos
  high : ∀ t ∈ ts, t.loc.stop ≤ j
  apart : ts.Pairwise fun t u => t.loc.Apart u.loc

namespace SpansBetween

variable {src : Source} {i j k : Nat} {ts us : List SpanTree}

theorem nil : SpansBetween src i j [] := ⟨by simp, by simp, by simp, .nil⟩

theorem mono {i' j' : Nat} (h : SpansBetween src i j ts) (hi : i' ≤ i) (hj : j ≤ j') :
    SpansBetween src i' j' ts where
  placed := h.placed
  low t ht := (Int.ofNat_le.2 hi).trans (h.low t ht)
  high t ht := (h.high t ht).trans (Int.ofNat_le.2 hj)
  apart := h.apart

/-- Trees that are read one after the other, with a gap between them. -/
theorem append {l : Nat} (h : SpansBetween src i j ts) (h' : SpansBetween src k l us)
    (hle : i ≤ j ∧ j ≤ k ∧ k ≤ l) : SpansBetween src i l (ts ++ us) where
  placed := List.forall_mem_append.2 ⟨h.placed, h'.placed⟩
  low := List.forall_mem_append.2 ⟨h.low, (h'.mono (by omega) le_rfl).low⟩
  high := List.forall_mem_append.2 ⟨(h.mono le_rfl (by omega)).high, h'.high⟩
  apart := List.pairwise_append.2 ⟨h.apart, h'.apart, fun t ht u hu =>
    .inl ((h.high t ht).trans ((h'.mono hle.2.1 le_rfl).low u hu))⟩

theorem perm (h : SpansBetween src i j ts) (hp : ts.Perm us) : SpansBetween src i j us where
  placed t ht := h.placed t (hp.mem_iff.2 ht)
  low t ht := h.low t (hp.mem_iff.2 ht)
  high t ht := h.high t (hp.mem_iff.2 ht)
  apart := (hp.pairwise_iff fun h => h.symm).1 h.apart

/-- A node over trees between two positions, whose own location is the span from the
one to the other. -/
theorem node (h : SpansBetween src i j ts) (hlt : i < j) (hj : j ≤ src.size) :
    SpansBetween src i j [.node (src.locate i j) ts] where
  placed := List.forall_mem_singleton.2
    (.node (src.fits_locate hlt hj) (fun t ht => ⟨h.low t ht, h.high t ht⟩) h.apart h.placed)
  low := List.forall_mem_singleton.2 le_rfl
  high := List.forall_mem_singleton.2 le_rfl
  apart := List.pairwise_singleton _ _

/-- A node over a single tree may have the location of that tree. -/
theorem wrap {t : SpanTree} (h : SpansBetween src i j [t]) :
    SpansBetween src i j [.node t.loc [t]] where
  placed := List.forall_mem_singleton.2
    (.node (h.placed t (by simp)).fits (by simp [Location.Within]) (List.pairwise_singleton _ _)
      h.placed)
  low := List.forall_mem_singleton.2 (h.low t (by simp))
  high := List.forall_mem_singleton.2 (h.high t (by simp))
  apart := List.pairwise_singleton _ _

end SpansBetween

end FunRiscv

import Mathlib
import FunRiscv.Proofs.Pass.Temporaries

/-!
# Linearization preserves meaning

* `Program.lastTemporary_lt`: a bound on the number that linearization goes on from.
* `Program.eval_linearize`: calls mean the same in the linearized program, if the temporaries
  are distinct and new.
* `linearize_preserves`: they are, if every name that looks like a temporary is assigned.
-/

namespace FunRiscv

open Machine

theorem foldl_countTemporary_lt {bound : Int} {ts : List String} {n : Int64} (hn : n.toInt < bound)
    (hts : ∀ t ∈ ts, ∀ m, temporaryNumber? t = some m → m.toInt < bound) :
    (ts.foldl countTemporary n).toInt < bound := by
  induction ts generalizing n with
  | nil => exact hn
  | cons t ts ih =>
    refine ih ?_ fun u hu => hts u (List.mem_cons_of_mem _ hu)
    unfold countTemporary
    split
    · next m hm =>
      split
      · exact hts t List.mem_cons_self m hm
      · exact hn
    · exact hn

/-- The counter stays below a bound on it and on the numbers of the temporaries that
are assigned. -/
theorem Program.lastTemporary_lt {p : Program} {last : Int64} {bound : Int}
    (hlast : last.toInt < bound)
    (hts : ∀ t ∈ p.targets, ∀ m, temporaryNumber? t = some m → m.toInt < bound) :
    (p.lastTemporary last).toInt < bound :=
  foldl_countTemporary_lt hlast hts

theorem map_name_eq {temps : List String} {fs gs : List NamedFunction}
    (h : List.Forall₂ (Hoisting.SameFunction temps) fs gs) : gs.map (·.name) = fs.map (·.name) := by
  induction h with
  | nil => rfl
  | cons hf _ ih => rw [List.map_cons, List.map_cons, hf.name, ih]

/-- A function is found under its name in both lists or in neither. -/
theorem find?_rel {temps : List String} {fs gs : List NamedFunction}
    (h : List.Forall₂ (Hoisting.SameFunction temps) fs gs) (name : String) :
    Option.Rel (Hoisting.SameFunction temps) (fs.find? (·.name == name))
      (gs.find? (·.name == name)) := by
  induction h with
  | nil => exact .none
  | cons hf _ ih =>
    rw [List.find?_cons, List.find?_cons, hf.name]
    split
    · exact .some hf
    · exact ih

/-- A call means the same in a program with functions that mean the same. -/
theorem Program.eval_eq_of_same {p q : Program} {temps : List String}
    (hsame : List.Forall₂ (Hoisting.SameFunction temps) p.functions q.functions)
    (hlow : p.isLowerable = true) (hnodup : temps.Nodup) (hfresh : ∀ n ∈ p.mentioned, n ∉ temps)
    (depth : Nat) (name : String) (args : List Val) :
    q.eval depth name args = p.eval depth name args := by
  induction depth generalizing name args with
  | zero => rfl
  | succ depth ih =>
    rw [Program.eval, Program.eval, map_name_eq hsame]
    simp only [ih]
    have hrel := find?_rel hsame name
    generalize hf : p.functions.find? (·.name == name) = found at hrel
    generalize q.functions.find? (·.name == name) = found' at hrel
    cases hrel with
    | none => rfl
    | @some f g hfg =>
      have hmem : f ∈ p.functions := List.mem_of_find?_eq_some hf
      have hflow : stmtsLowerable f.func.body.stmts = true := List.all_eq_true.1 hlow f hmem
      have hnames : ∀ n ∈ f.func.mentioned, n ∉ temps :=
        fun n hn => hfresh n (List.mem_flatMap.2 ⟨f, hmem, hn⟩)
      simp only [Option.bind_some, hfg.name, hfg.params, hfg.eval hflow hnodup hnames]

/-- Linearization preserves meaning. Take a program of the forms that code can be generated for, in
which every name that looks like a temporary is the target of an assignment and has a number below
`2 ^ 62`, if it has one. Then a call of a function gives a value if and only if it gives that value
in the linearized program. So that the counter does not run over, it starts below `2 ^ 62`, and the
program has fewer than `2 ^ 62` expressions. -/
theorem linearize_preserves (p : Program) (last : Int64) (hlow : p.isLowerable = true)
    (hnames : ∀ n ∈ p.mentioned, n.startsWith temporaryStem = true →
      n ∈ p.targets ∧ ∀ k, temporaryNumber? n = some k → k.toInt < 2 ^ 62)
    (hlast : last.toInt < 2 ^ 62) (hcount : p.nodeCount < 2 ^ 62) (name : String) (args : List Val)
    (v : Val) : (∃ depth, p.eval depth name args = some v) ↔
    ∃ depth, (p.linearize last).1.value.eval depth name args = some v := by
  obtain ⟨k, s', h⟩ := p.functions_linearize last
  have hk : k ≤ p.nodeCount := h.count
  have hbound : (p.lastTemporary last).toInt < 2 ^ 62 := by
    refine Program.lastTemporary_lt hlast fun t ht m hm => ?_
    exact (hnames t (p.targets_subset ht) (startsWith_of_temporaryNumber? hm)).2 m hm
  have hroom : (p.lastTemporary last).toInt + k < 2 ^ 63 := by omega
  have hfresh : ∀ n ∈ p.mentioned, n ∉ temporaries (p.lastTemporary last) k := by
    intro n hn hmem
    obtain ⟨i, -, rfl⟩ := List.mem_map.1 hmem
    have hlt := lt_of_mem_temporaries hroom hmem
    have hle := p.targets_le_lastTemporary (hnames _ hn (startsWith_temporaryName _)).1
      (temporaryNumber?_temporaryName _) last
    exact absurd hlt (Int.not_lt.2 hle)
  have heval := Program.eval_eq_of_same h.same hlow (nodup_temporaries hroom) hfresh
  exact exists_congr fun depth => by rw [heval]

/-- A program with calls, operations and a match in operands, and with a variable that
looks like a temporary:

    fn twice(x: u24) -> u24 { return x + x; }
    fn main(n: u24) -> u24 {
        __lin_3 = twice(twice(n) + 1) * 2;
        if __lin_3 > n * n { return (match twice(n) * 2 { 8 => n + n + n, m => m }) - __lin_3; }
        return twice(n * n);
    } -/
def nestedCalls : Program :=
  let n : Expr := .var {} "n"
  let twice (x : Expr) : Expr := .call {} (.var {} "twice") [x] []
  let function (name param : String) (stmts : List Stmt) : Definition :=
    .func {
      loc := {}, name, params := [⟨{}, param, some (.name {} "u24" [])⟩],
      ret := some (.name {} "u24" []), body := ⟨{}, stmts⟩, checked := true }
  ⟨[], [
    function "twice" "x" [.ret {} (some (.binOp {} .add (.var {} "x") (.var {} "x")))],
    function "main" "n" [
      .assign {} "__lin_3" none (.binOp {} .mul (twice (.binOp {} .add (twice n) (.uint {} 1)))
        (.uint {} 2)),
      .ifThen {} (.binOp {} .gt (.var {} "__lin_3") (.binOp {} .mul n n)) {} [
        .ret {} (some (.binOp {} .sub
          (.matchOn {} (.binOp {} .mul (twice n) (.uint {} 2)) [
            .mk {} (.lit {} (.uint {} 8)) (.binOp {} .add (.binOp {} .add n n) n),
            .mk {} (.var {} "m") (.var {} "m")])
          (.var {} "__lin_3")))],
      .ret {} (some (twice (.binOp {} .mul n n)))]]⟩

theorem linearize_preserves_nestedCalls :
    (nestedCalls.introduced 0).length = 6 ∧
      (∃ depth, nestedCalls.eval depth "main" [9] = some 162) ∧
      ∃ depth, (nestedCalls.linearize 0).1.value.eval depth "main" [9] = some 162 := by
  have hassigned : ∀ n ∈ nestedCalls.mentioned, n.startsWith temporaryStem = true →
    n ∈ nestedCalls.targets := by decide +kernel
  have hsmall : ∀ n ∈ nestedCalls.mentioned,
    (temporaryNumber? n).all (fun k => decide (k.toInt < 2 ^ 62)) = true := by decide +kernel
  have hmain : ∃ depth, nestedCalls.eval depth "main" [9] = some 162 := ⟨2, by decide +kernel⟩
  refine ⟨by decide +kernel, hmain,
    (linearize_preserves nestedCalls 0 (by decide +kernel) (fun n hn hstem => ?_)
      (by decide +kernel) (by decide +kernel) "main" [9] 162).1 hmain⟩
  exact ⟨hassigned n hn hstem, fun k hk => by simpa [hk] using hsmall n hn⟩

end FunRiscv

import Mathlib
import FunRiscv.Proofs.Surface.Written

/-!
# The source form has the bytes that are written

* `Renders`: formatting gives a result with a property, or a line is too deep.
* `Expr.renders_print`, `Stmt.renders_print`, `Definition.renders_print`: the source form of a
  legible tree has the bytes of `print`.
* `Program.renders_print`: so has that of a program.
-/

namespace FunRiscv

/-- Formatting gives a result with the property, or fails only because a line is too deep. -/
def Renders {α : Type} (r : Formatted α) (P : α → Prop) : Prop :=
  match r with
  | .ok a => P a
  | .error e => e.cause = .tooDeep

/-- Formatting gives a text of the given bytes. -/
abbrev RendersAs (r : Formatted String) (bs : List UInt8) : Prop :=
  Renders r fun s => Text.bytesOf s = bs

/-- Formatting gives texts of the given bytes. -/
abbrev RendersAll (r : Formatted (List String)) (bss : List (List UInt8)) : Prop :=
  Renders r fun ss => ss.map Text.bytesOf = bss

namespace Renders

variable {α β : Type} {r : Formatted α} {P : α → Prop} {Q : β → Prop}

theorem pure {a : α} (h : P a) : Renders (Pure.pure a) P := h

theorem bind {f : α → Formatted β} (h : Renders r P) (hf : ∀ a, P a → Renders (f a) Q) :
    Renders (r >>= f) Q := by
  cases r with
  | error e => exact h
  | ok a => exact hf a h

theorem inContext (label : String) (h : Renders r P) : Renders (FunRiscv.inContext label r) P := by
  cases r with
  | error e => exact h
  | ok a => exact h

theorem ok (h : Renders r P) (hdeep : ∀ e, r = .error e → e.cause ≠ .tooDeep) :
    ∃ a, r = .ok a ∧ P a := by
  cases r with
  | error e => exact absurd h (hdeep e rfl)
  | ok a => exact ⟨a, rfl, h⟩

theorem mapM {γ : Type} {f : γ → Formatted String} {print : γ → List UInt8} {xs : List γ}
    (h : ∀ x ∈ xs, RendersAs (f x) (print x)) : RendersAll (xs.mapM f) (xs.map print) := by
  induction xs with
  | nil => exact Renders.pure rfl
  | cons x xs ih =>
    rw [List.mapM_cons]
    refine (h x (by simp)).bind fun s hs =>
      (ih fun y hy => h y (by simp [hy])).bind fun ss hss => Renders.pure ?_
    rw [List.map_cons, List.map_cons, hs, hss]

end Renders

/-! ### Texts -/

theorem bytesOf_commaSeparated (ss : List String) :
    Text.bytesOf (commaSeparated ss) = commaJoin (ss.map Text.bytesOf) := by
  induction ss with
  | nil => rfl
  | cons s ss ih =>
    cases ss with
    | nil => rw [commaSeparated, String.intercalate_singleton]; rfl
    | cons t ts =>
      rw [commaSeparated] at ih ⊢
      simp only [String.intercalate_cons_cons, Text.bytesOf_append, ih, List.map_cons, commaJoin,
        List.append_assoc]
      rfl

theorem bytesOf_join (ss : List String) :
    Text.bytesOf (String.join ss) = (ss.map Text.bytesOf).flatten := by
  induction ss with
  | nil => rfl
  | cons s ss ih => rw [String.join_cons, Text.bytesOf_append, ih, List.map_cons, List.flatten_cons]

/-! ### Types -/

theorem TypeExpr.bytesOf_parenthesise (t : TypeExpr) (s : String) :
    Text.bytesOf (t.parenthesise s) = t.enclose (Text.bytesOf s) := by
  cases t with
  | func l p r =>
    simp only [TypeExpr.parenthesise, TypeExpr.enclose, Text.bytesOf_append, List.append_assoc]
    rfl
  | name l n args => rfl
  | tuple l ts => rfl
  | missing => rfl

theorem rendersAll_types {ts : List TypeExpr} (h : ∀ t ∈ ts, RendersAs t.format t.print) :
    RendersAll (formatTypes ts) (ts.map TypeExpr.print) := by
  induction ts with
  | nil => exact Renders.pure rfl
  | cons t ts ih =>
    refine (h t (by simp)).bind fun s hs =>
      (ih fun u hu => h u (by simp [hu])).bind fun ss hss => Renders.pure ?_
    rw [List.map_cons, List.map_cons, hs, hss]

theorem TypeExpr.renders_print {t : TypeExpr} (h : t.Legible) : RendersAs t.format t.print := by
  induction t using TypeExpr.inductionOn with
  | hname l n args ih =>
    cases args with
    | nil => exact Renders.pure rfl
    | cons u us =>
      have hargs := rendersAll_types fun v hv => ih v hv ((typesLegible_iff _).1 h.2 v hv)
      refine hargs.bind fun ss hss => Renders.pure ?_
      simp only [TypeExpr.print, typesPrint_eq_map, Text.bytesOf_append, bytesOf_commaSeparated,
        hss, List.append_assoc]
      rfl
  | hfunc l p r ihp ihr =>
    refine (ihp h.1).bind fun s hs => (ihr h.2).bind fun u hu => Renders.pure ?_
    simp only [TypeExpr.print, Text.bytesOf_append, TypeExpr.bytesOf_parenthesise, hs, hu,
      List.append_assoc]
    rfl
  | htuple l ts ih =>
    refine (rendersAll_types fun v hv => ih v hv ((typesLegible_iff _).1 h.2 v hv)).bind
      fun ss hss => Renders.pure ?_
    simp only [TypeExpr.print, typesPrint_eq_map, Text.bytesOf_append, bytesOf_commaSeparated, hss,
      List.append_assoc]
    rfl
  | hmissing => exact absurd h id

theorem Param.renders_print {p : Param} (h : p.Legible) : RendersAs p.format p.print := by
  rw [Param.format, Param.print]
  cases ht : p.type with
  | none => exact Renders.pure (by simp [optionalTypePrint])
  | some t =>
    refine ((TypeExpr.renders_print (h.2 t ht)).inContext _).bind fun s hs => Renders.pure ?_
    simp only [optionalTypePrint, Text.bytesOf_append, hs, List.append_assoc]
    rfl

theorem renders_params {ps : List Param} (h : ∀ p ∈ ps, p.Legible) :
    RendersAs (formatParams ps) (commaJoin (ps.map Param.print)) := by
  refine (Renders.mapM fun p hp => Param.renders_print (h p hp)).bind fun ss hss => Renders.pure ?_
  rw [bytesOf_commaSeparated, hss]

/-! ### Expressions and patterns -/

theorem Expr.bytesOf_parenthesise (e : Expr) (s : String) :
    Text.bytesOf (e.parenthesise s) = e.enclose (Text.bytesOf s) := by
  cases e <;> rfl

theorem rendersAll_elems {es : List Expr} (h : ∀ e ∈ es, RendersAs e.format e.print) (i : Nat) :
    RendersAll (formatElems i es) (es.map Expr.print) := by
  induction es generalizing i with
  | nil => exact Renders.pure rfl
  | cons e es ih =>
    refine ((h e (by simp)).inContext _).bind fun s hs =>
      (ih (fun u hu => h u (by simp [hu])) (i + 1)).bind fun ss hss => ?_
    exact Renders.pure (by rw [List.map_cons, List.map_cons, hs, hss])

theorem rendersAll_named {ns : List NamedArg}
    (h : ∀ n ∈ ns, RendersAs n.value.format n.value.print) :
    RendersAll (formatNamed ns) (ns.map NamedArg.print) := by
  induction ns with
  | nil => exact Renders.pure rfl
  | cons a ns ih =>
    obtain ⟨l, n, e⟩ := a
    have he : RendersAs e.format e.print := h (.mk l n e) (by simp)
    refine (he.inContext _).bind fun s hs =>
      (ih fun b hb => h b (by simp [hb])).bind fun ss hss => Renders.pure ?_
    simp only [List.map_cons, NamedArg.print, Text.bytesOf_append, hs, hss, List.append_assoc]
    rfl

theorem Expr.renders_literal {e : Expr} (h : e.isLiteral = true) : RendersAs e.format e.print := by
  cases e with
  | eraser l => exact Renders.pure rfl
  | uint l v => exact Renders.pure rfl
  | int l v => exact Renders.pure rfl
  | float l v => exact Renders.pure rfl
  | str l v => exact Renders.pure rfl
  | bool l v => exact Renders.pure rfl
  | _ => simp [Expr.isLiteral] at h

theorem rendersAll_patterns {ps : List Pattern} (h : ∀ p ∈ ps, RendersAs p.format p.print) :
    RendersAll (formatPatterns ps) (ps.map Pattern.print) := by
  induction ps with
  | nil => exact Renders.pure rfl
  | cons p ps ih =>
    refine (h p (by simp)).bind fun s hs =>
      (ih fun q hq => h q (by simp [hq])).bind fun ss hss => Renders.pure ?_
    rw [List.map_cons, List.map_cons, hs, hss]

theorem Pattern.renders_print {p : Pattern} (h : p.Legible) : RendersAs p.format p.print := by
  induction p using Pattern.inductionOn with
  | hvar l n => exact Renders.pure rfl
  | hwild l => exact Renders.pure rfl
  | hlit l e => exact Expr.renders_literal h.1
  | hcons l n ps ih =>
    cases ps with
    | nil => exact Renders.pure rfl
    | cons q qs =>
      have hargs := rendersAll_patterns fun p hp => ih p hp ((patternsLegible_iff _).1 h.2.2 p hp)
      refine hargs.bind fun ss hss => Renders.pure ?_
      simp only [Pattern.print, patternsPrint_eq_map, Text.bytesOf_append, bytesOf_commaSeparated,
        hss, List.append_assoc]
      rfl
  | htuple l ps ih =>
    refine (rendersAll_patterns fun p hp => ih p hp ((patternsLegible_iff _).1 h p hp)).bind
      fun ss hss => Renders.pure ?_
    simp only [Pattern.print, patternsPrint_eq_map, Text.bytesOf_append, bytesOf_commaSeparated,
      hss, List.append_assoc]
    rfl
  | hmissing => exact absurd h id

theorem rendersAll_cases {cs : List Case} (hp : ∀ c ∈ cs, c.pattern.Legible)
    (h : ∀ c ∈ cs, RendersAs c.body.format c.body.print) (i : Nat) :
    RendersAll (formatCases i cs) (cs.map Case.print) := by
  induction cs generalizing i with
  | nil => exact Renders.pure rfl
  | cons c cs ih =>
    obtain ⟨l, p, e⟩ := c
    have hpattern : RendersAs p.format p.print := Pattern.renders_print (hp (.mk l p e) (by simp))
    have hbody : RendersAs e.format e.print := h (.mk l p e) (by simp)
    refine (hpattern.inContext _).bind fun s hs => (hbody.inContext _).bind fun t ht => ?_
    refine (ih (fun d hd => hp d (by simp [hd])) (fun d hd => h d (by simp [hd])) (i + 1)).bind
      fun ss hss => Renders.pure ?_
    simp only [List.map_cons, Case.print, Text.bytesOf_append, hs, ht, hss, List.append_assoc]
    rfl

/-- The second arm of a conditional, after all that stands before it. -/
theorem renders_elseArm (e : Expr) {r : Formatted String} {head : String} {front bs : List UInt8}
    (h : RendersAs r bs) (hhead : Text.bytesOf head = front) : RendersAs (match e with
      | .ifElse .. => do return head ++ (← r)
      | _ => do
        let elseArm ← inContext "else" r
        return head ++ "\x7b " ++ elseArm ++ " \x7d") (front ++ e.brace bs) := by
  split
  · refine h.bind fun s hs => Renders.pure ?_
    rw [Text.bytesOf_append, hhead, hs]
    rfl
  · rename_i hne
    have hbrace : e.brace bs = 0x7b :: 0x20 :: (bs ++ [0x20, 0x7d]) := by
      cases e with
      | ifElse l c t f => exact absurd rfl (hne l c t f)
      | _ => rfl
    refine (h.inContext _).bind fun s hs => Renders.pure ?_
    rw [hbrace]
    simp only [Text.bytesOf_append, hhead, hs, List.append_assoc]
    rfl

theorem Expr.renders_print {e : Expr} (h : e.Legible) : RendersAs e.format e.print := by
  induction e using Expr.inductionOn with
  | hvar l n => exact Renders.pure rfl
  | huint l v => exact Expr.renders_literal rfl
  | hint l v => exact Expr.renders_literal rfl
  | hfloat l v => exact Expr.renders_literal rfl
  | hstr l v => exact Expr.renders_literal rfl
  | hbool l v => exact Expr.renders_literal rfl
  | heraser l => exact Expr.renders_literal rfl
  | htuple l es ih =>
    refine (rendersAll_elems (fun e he => ih e he ((exprsLegible_iff _).1 h e he)) 0).bind
      fun ss hss => Renders.pure ?_
    simp only [Expr.print, exprsPrint_eq_map, Text.bytesOf_append, bytesOf_commaSeparated, hss,
      List.append_assoc]
    split <;> rfl
  | hlist l es ih =>
    refine (rendersAll_elems (fun e he => ih e he ((exprsLegible_iff _).1 h e he)) 0).bind
      fun ss hss => Renders.pure ?_
    simp only [Expr.print, exprsPrint_eq_map, Text.bytesOf_append, bytesOf_commaSeparated, hss,
      List.append_assoc]
    rfl
  | hbinOp l op a b iha ihb =>
    refine ((iha h.1).inContext _).bind fun s hs =>
      ((ihb h.2).inContext _).bind fun t ht => Renders.pure ?_
    simp only [Expr.print, Text.bytesOf_append, Expr.bytesOf_parenthesise, hs, ht,
      List.append_assoc]
    rfl
  | hcall l f as ns ihf ihas ihns =>
    have hns : ∀ n ∈ ns, n.value.Legible := by
      rintro ⟨l, n, e⟩ hn
      exact ((namedLegible_iff _).1 h.2.2 _ hn).2
    refine ((ihf h.1).inContext _).bind fun s hs => ?_
    refine (rendersAll_elems (fun e he => ihas e he ((exprsLegible_iff _).1 h.2.1 e he)) 0).bind
      fun ss hss => ?_
    refine (rendersAll_named fun n hn => ihns n hn (hns n hn)).bind fun ts hts => Renders.pure ?_
    simp only [Expr.print, exprsPrint_eq_map, namedPrint_eq_map, Text.bytesOf_append,
      Expr.bytesOf_parenthesise, bytesOf_commaSeparated, List.map_append, hs, hss, hts,
      List.append_assoc]
    rfl
  | hlambda l ps b ih =>
    refine (renders_params h.1).bind fun s hs =>
      ((ih h.2).inContext _).bind fun t ht => Renders.pure ?_
    simp only [Expr.print, Text.bytesOf_append, hs, ht, List.append_assoc]
    rfl
  | hifElse l c t e ihc iht ihe =>
    refine ((ihc h.1).inContext _).bind fun s hs => ((iht h.2.1).inContext _).bind fun u hu => ?_
    have hhead : Text.bytesOf ("if " ++ s ++ " \x7b " ++ u ++ " \x7d else ") =
      Text.bytesOf "if" ++
        0x20 :: (c.print ++ 0x20 :: 0x7b :: 0x20 ::
          (t.print ++ 0x20 :: 0x7d :: 0x20 :: (Text.bytesOf "else" ++ [0x20]))) := by
      simp only [Text.bytesOf_append, hs, hu, List.append_assoc]
      rfl
    have hprint : (Expr.ifElse l c t e).print = (Text.bytesOf "if" ++ 0x20 :: (c.print ++
        0x20 :: 0x7b :: 0x20 ::
          (t.print ++ 0x20 :: 0x7d :: 0x20 :: (Text.bytesOf "else" ++ [0x20])))) ++
      e.brace e.print := by
      simp [Expr.print]
    rw [hprint]
    exact renders_elseArm e (ihe h.2.2) hhead
  | hmatchOn l x cs ihx ihcs =>
    have hcs : ∀ c ∈ cs, c.pattern.Legible ∧ c.body.Legible := by
      rintro ⟨l, p, e⟩ hc
      exact (casesLegible_iff _).1 h.2 _ hc
    refine ((ihx h.1).inContext _).bind fun s hs => ?_
    refine (rendersAll_cases (fun c hc => (hcs c hc).1) (fun c hc => ihcs c hc (hcs c hc).2) 0).bind
      fun ss hss => Renders.pure ?_
    simp only [Expr.print, casesPrint_eq_map, Text.bytesOf_append, bytesOf_commaSeparated, hs, hss,
      List.append_assoc]
    rfl
  | haccess l x f ih =>
    refine (ih h.1).bind fun s hs => Renders.pure ?_
    simp only [Expr.print, Text.bytesOf_append, Expr.bytesOf_parenthesise, hs, List.append_assoc]
    rfl
  | hmissing => exact absurd h id

/-! ### Statements -/

theorem renders_indent (d : Nat) : RendersAs (indent d) (tabs d) := by
  rw [indent]
  split
  · refine Renders.pure ?_
    rw [Text.bytesOf_ofList, tabs]
    induction d with
    | zero => rfl
    | succ d ih =>
      rw [List.replicate_succ, List.flatMap_cons, ih (by omega), List.replicate_succ]; rfl
  · rfl

/-- What comes after an annotation that may be missing. -/
theorem renders_optionalType {type : Option TypeExpr} {next : String → Formatted String}
    {Q : String → Prop} (label before : String) (lead : List UInt8)
    (h : ∀ t, type = some t → t.Legible) (hbefore : Text.bytesOf before = lead ++ [0x20])
    (hnext : ∀ a, Text.bytesOf a = optionalTypePrint lead type → Renders (next a) Q) :
    Renders (match type with
      | none => do
        let a ← Pure.pure ""
        next a
      | some t => do
        let s ← inContext label t.format
        let a ← Pure.pure (before ++ s)
        next a) Q := by
  cases type with
  | none => exact hnext "" rfl
  | some t =>
    refine ((TypeExpr.renders_print (h t rfl)).inContext _).bind fun s hs => hnext (before ++ s) ?_
    simp only [optionalTypePrint, Text.bytesOf_append, hbefore, hs, List.append_assoc]
    rfl

theorem renders_stmts {ss : List Stmt} {d : Nat}
    (h : ∀ s ∈ ss, RendersAs (s.format d) (tabs d ++ (s.print d ++ [0x0a]))) :
    RendersAs (formatStmts d ss) (stmtsPrint d ss) := by
  induction ss with
  | nil => exact Renders.pure rfl
  | cons s ss ih =>
    refine (h s (by simp)).bind fun u hu =>
      (ih fun t ht => h t (by simp [ht])).bind fun us hus => Renders.pure ?_
    simp only [stmtsPrint, Text.bytesOf_append, hu, hus, List.append_assoc]
    rfl

theorem Stmt.renders_print {s : Stmt} (h : s.Legible) :
    ∀ d, RendersAs (s.format d) (tabs d ++ (s.print d ++ [0x0a])) := by
  induction s using Stmt.inductionOn with
  | hret l x =>
    intro d
    cases x with
    | none =>
      refine (renders_indent d).bind fun t ht => Renders.pure ?_
      simp only [Stmt.print, Text.bytesOf_append, ht, List.append_assoc]
      rfl
    | some e =>
      refine (renders_indent d).bind fun t ht =>
        ((Expr.renders_print (h e rfl)).inContext _).bind fun u hu => Renders.pure ?_
      simp only [Stmt.print, Text.bytesOf_append, ht, hu, List.append_assoc]
      simp only [List.cons_append, List.append_assoc]
      rfl
  | hassign l n type x =>
    intro d
    refine (renders_indent d).bind fun t ht =>
      renders_optionalType "type" ": " [0x3a] h.2.1 rfl fun a ha => ?_
    refine ((Expr.renders_print h.2.2).inContext _).bind fun u hu => Renders.pure ?_
    simp only [Stmt.print, Text.bytesOf_append, ht, ha, hu, List.append_assoc]
    simp only [List.cons_append, List.append_assoc]
    rfl
  | huse l n x =>
    intro d
    refine (renders_indent d).bind fun t ht =>
      ((Expr.renders_print h.2).inContext _).bind fun u hu => Renders.pure ?_
    simp only [Stmt.print, Text.bytesOf_append, ht, hu, List.append_assoc]
    simp only [List.cons_append, List.append_assoc]
    rfl
  | hifThen l c tl thenArm ih =>
    intro d
    have hthen := renders_stmts fun s hs => ih s hs ((stmtsLegible_iff _).1 h.2 s hs) (d + 1)
    refine (renders_indent d).bind fun t ht =>
      ((Expr.renders_print h.1).inContext _).bind fun u hu => ?_
    refine (hthen.inContext _).bind fun b hb => Renders.pure ?_
    simp only [Stmt.print, Text.bytesOf_append, ht, hu, hb, List.append_assoc]
    simp only [List.cons_append, List.append_assoc]
    rfl
  | hifElse l c tl thenArm el elseArm iht ihe =>
    intro d
    have hthen := renders_stmts fun s hs => iht s hs ((stmtsLegible_iff _).1 h.2.1 s hs) (d + 1)
    have helse := renders_stmts fun s hs => ihe s hs ((stmtsLegible_iff _).1 h.2.2 s hs) (d + 1)
    refine (renders_indent d).bind fun t ht =>
      ((Expr.renders_print h.1).inContext _).bind fun u hu => ?_
    refine (hthen.inContext _).bind fun b hb => (helse.inContext _).bind fun o ho => Renders.pure ?_
    simp only [Stmt.print, Text.bytesOf_append, ht, hu, hb, ho, List.append_assoc]
    simp only [List.cons_append, List.append_assoc]
    rfl
  | hexpr l x =>
    intro d
    refine (renders_indent d).bind fun t ht =>
      ((Expr.renders_print h).inContext _).bind fun u hu => Renders.pure ?_
    simp only [Stmt.print, Text.bytesOf_append, ht, hu, List.append_assoc]
    rfl
  | hmissing => exact absurd h id

/-! ### Definitions -/

theorem bytesOf_formatTypeParams (ps : List String) :
    Text.bytesOf (formatTypeParams ps) = typeParamsPrint ps := by
  rw [formatTypeParams, typeParamsPrint]
  split
  · rfl
  · simp only [Text.bytesOf_append, bytesOf_commaSeparated, List.append_assoc]
    rfl

theorem Field.renders_print {f : Field} (h : f.Legible) : RendersAs f.format f.print := by
  refine ((TypeExpr.renders_print h.2).inContext _).bind fun s hs => Renders.pure ?_
  simp only [Field.print, Text.bytesOf_append, hs, List.append_assoc]
  rfl

theorem FuncDef.renders_print {f : FuncDef} (h : f.Legible) (d : Nat) :
    RendersAs (f.format d) (tabs d ++ (f.print d ++ [0x0a])) := by
  obtain ⟨-, hparams, hret, hbody, -⟩ := h
  have hstmts :=
    renders_stmts fun s hs => Stmt.renders_print ((stmtsLegible_iff _).1 hbody s hs) (d + 1)
  refine (renders_indent d).bind fun t ht => (renders_params hparams).bind fun p hp => ?_
  refine renders_optionalType "return type" " -> " [0x20, 0x2d, 0x3e] hret rfl fun r hr => ?_
  refine (hstmts.inContext _).bind fun b hb => Renders.pure ?_
  simp only [FuncDef.print, Text.bytesOf_append, ht, hp, hr, hb, List.append_assoc]
  simp only [List.cons_append, List.append_assoc]
  rfl

theorem Variant.renders_print {v : Variant} (h : v.Legible) (d : Nat) :
    RendersAs (v.format d) (tabs d ++ (v.print ++ [0x2c, 0x0a])) := by
  refine (renders_indent d).bind fun t ht => ?_
  rw [Variant.print]
  split
  · refine Renders.pure ?_
    simp only [Text.bytesOf_append, ht, List.append_assoc]
    rfl
  · refine ((Renders.mapM fun f hf => Field.renders_print (h.2 f hf)).inContext _).bind
      fun ss hss => Renders.pure ?_
    simp only [Text.bytesOf_append, ht, bytesOf_commaSeparated, hss, List.append_assoc]
    simp only [List.cons_append, List.append_assoc]
    rfl

/-- Lines one after the other. -/
theorem bytesOf_join_lines {α : Type} {d : Nat} {print : α → List UInt8} {stop : List UInt8}
    {xs : List α} {ss : List String}
    (h : ss.map Text.bytesOf = xs.map fun x => tabs d ++ (print x ++ stop)) :
    Text.bytesOf (String.join ss) = linesPrint d print stop xs := by
  rw [bytesOf_join, h, linesPrint, List.flatMap_def]

theorem TypeDef.renders_print {t : TypeDef} (h : ∀ v ∈ t.variants, v.Legible) (d : Nat) :
    RendersAs (t.format d) (tabs d ++ (t.print d ++ [0x0a])) := by
  refine (renders_indent d).bind fun i hi => ?_
  refine (Renders.mapM fun v hv => Variant.renders_print (h v hv) (d + 1)).bind fun ss hss =>
    Renders.pure ?_
  simp only [TypeDef.print, Text.bytesOf_append, hi, bytesOf_formatTypeParams,
    bytesOf_join_lines hss, List.append_assoc]
  simp only [List.cons_append, List.append_assoc]
  rfl

theorem ObjectDef.renders_print {o : ObjectDef} (hfields : ∀ f ∈ o.fields, f.Legible)
    (hfuncs : ∀ f ∈ o.funcs, f.Legible) (d : Nat) :
    RendersAs (o.format d) (tabs d ++ (o.print d ++ [0x0a])) := by
  have hfield : ∀ f ∈ o.fields, RendersAs (do return (← indent (d + 1)) ++ (← f.format) ++ ",\n")
      (tabs (d + 1) ++ (f.print ++ [0x2c, 0x0a])) := by
    intro f hf
    refine (renders_indent (d + 1)).bind fun i hi =>
      (Field.renders_print (hfields f hf)).bind fun s hs => Renders.pure ?_
    simp only [Text.bytesOf_append, hi, hs, List.append_assoc]
    rfl
  refine (renders_indent d).bind fun i hi => (Renders.mapM hfield).bind fun ss hss => ?_
  refine (Renders.mapM fun f hf => (FuncDef.renders_print (hfuncs f hf) (d + 1)).inContext _).bind
    fun us hus => Renders.pure ?_
  simp only [ObjectDef.print, Text.bytesOf_append, hi, bytesOf_formatTypeParams,
    bytesOf_join_lines hss, bytesOf_join_lines hus, List.append_assoc]
  simp only [List.cons_append, List.append_assoc]
  rfl

theorem TypeAlias.renders_print {a : TypeAlias} (h : a.type.Legible) (d : Nat) :
    RendersAs (a.format d) (tabs d ++ (a.print ++ [0x0a])) := by
  refine (renders_indent d).bind fun i hi =>
    (TypeExpr.renders_print h).bind fun s hs => Renders.pure ?_
  simp only [TypeAlias.print, Text.bytesOf_append, hi, bytesOf_formatTypeParams, hs,
    List.append_assoc]
  simp only [List.cons_append, List.append_assoc]
  rfl

/-- Definitions at one depth, a blank line between any two. -/
theorem renders_definitions {ds : List Definition} {k : Nat}
    (h : ∀ d ∈ ds, RendersAs (d.format k) (tabs k ++ (d.print k ++ [0x0a]))) :
    Renders (formatDefinitions k ds) fun ss =>
      Text.bytesOf (String.intercalate "\n" ss) = definitionsPrint k ds ∧
        ss.isEmpty = ds.isEmpty := by
  induction ds with
  | nil => exact Renders.pure ⟨rfl, rfl⟩
  | cons d ds ih =>
    refine ((h d (by simp)).inContext _).bind fun s hs =>
      (ih fun e he => h e (by simp [he])).bind fun ss hss => Renders.pure ⟨?_, rfl⟩
    cases ss with
    | nil =>
      have hnil : ds = [] := by simpa using hss.2.symm
      rw [String.intercalate_singleton, hs, hnil]
      simp [definitionsPrint]
    | cons t ts =>
      have hne : ds.isEmpty = false := by simpa using hss.2.symm
      simp only [String.intercalate_cons_cons, Text.bytesOf_append, hs, hss.1, definitionsPrint,
        hne, List.append_assoc]
      rfl

theorem Definition.renders_member {d : Definition} (h : d.Legible false) (k : Nat) :
    RendersAs (d.format k) (tabs k ++ (d.print k ++ [0x0a])) := by
  cases d with
  | module l n ds => simp [Definition.Legible] at h
  | func f =>
    simp only [Definition.Legible] at h
    exact FuncDef.renders_print h k
  | type t =>
    simp only [Definition.Legible] at h
    exact TypeDef.renders_print h.2.2 k
  | object o =>
    simp only [Definition.Legible] at h
    exact ObjectDef.renders_print h.2.2.1 h.2.2.2 k
  | «alias» a =>
    simp only [Definition.Legible] at h
    exact TypeAlias.renders_print h.2.2 k

theorem Definition.renders_print {d : Definition} (h : d.Legible true) (k : Nat) :
    RendersAs (d.format k) (tabs k ++ (d.print k ++ [0x0a])) := by
  cases d with
  | module l n ds =>
    simp only [Definition.Legible] at h
    refine (renders_indent k).bind fun i hi => ?_
    refine (renders_definitions fun d hd => Definition.renders_member (h.2 d hd) (k + 1)).bind
      fun ss hss => Renders.pure ?_
    simp only [Definition.print, Text.bytesOf_append, hi, hss.1, List.append_assoc]
    simp only [List.cons_append, List.append_assoc]
    rfl
  | func f => exact Definition.renders_member (by simpa only [Definition.Legible] using h) k
  | type t => exact Definition.renders_member (by simpa only [Definition.Legible] using h) k
  | object o => exact Definition.renders_member (by simpa only [Definition.Legible] using h) k
  | «alias» a => exact Definition.renders_member (by simpa only [Definition.Legible] using h) k

/-! ### Programs -/

theorem Import.bytesOf_format (i : Import) :
    Text.bytesOf i.format = tabs 0 ++ (i.print ++ [0x0a]) := by
  rw [Import.format, Import.print]
  split
  · simp only [Text.bytesOf_append, List.append_assoc]
    simp only [List.cons_append, List.append_assoc]
    rfl
  · simp only [Text.bytesOf_append, bytesOf_commaSeparated, List.append_assoc]
    simp only [List.cons_append, List.append_assoc]
    rfl

/-- The source form of a legible program has the bytes that are written for it, unless a
line is too deep. -/
theorem Program.renders_print {p : Program} (h : p.Legible) : RendersAs p.format p.print := by
  refine (renders_definitions fun d hd => Definition.renders_print (h.2 d hd) 0).bind fun ss hss =>
    Renders.pure ?_
  have himports : (p.imports.map Import.format).map Text.bytesOf =
    p.imports.map fun i => tabs 0 ++ (i.print ++ [0x0a]) := by
    simp [Import.bytesOf_format]
  simp only [Program.print, Text.bytesOf_append, bytesOf_join_lines himports, hss.1,
    List.append_assoc]
  split <;> rfl

end FunRiscv

import PL0.Proofs.Codegen.Names

/-!
# `Codegen.Variant` — programs with the same bindings

A variant of a program (`Program.Variant`) differs from it by a renaming of all identifiers, and
otherwise in what binds no name: the places of identifiers and numbers in the source, leading signs,
parentheses around single factors, and empty statements between `begin` and `end`. Each clause takes
parts that may differ themselves, so that there may be any number of such differences at once.

Main statements: a variant of a variant is a variant (`Program.Variant.trans`), so that differences
that come about one after the other are one difference; and the identifiers of a program and of a
variant stand in pairs, in the order of the text (`Program.Variant.idents`).
-/

namespace PL0

/-! ## Renamings -/

/-- Other names for all names, distinct ones for distinct ones. The channels keep theirs, and so no
    other name becomes that of a channel. -/
structure Renaming where
  apply : String → String
  injective : Function.Injective apply
  read : apply readChannel = readChannel
  write : apply writeChannel = writeChannel

namespace Renaming

/-- The names as they are. -/
def id : Renaming := ⟨fun x => x, Function.injective_id, rfl, rfl⟩

/-- Two identifiers change names. -/
def swap (x y : Ident) (hx : x.Ordinary) (hy : y.Ordinary) : Renaming where
  apply := Equiv.swap x.name y.name
  injective := (Equiv.swap x.name y.name).injective
  read := Equiv.swap_apply_of_ne_of_ne hx.1.symm hy.1.symm
  write := Equiv.swap_apply_of_ne_of_ne hx.2.symm hy.2.symm

/-- One renaming after the other. -/
def comp (σ ρ : Renaming) : Renaming where
  apply := σ.apply ∘ ρ.apply
  injective := σ.injective.comp ρ.injective
  read := (congrArg σ.apply ρ.read).trans σ.read
  write := (congrArg σ.apply ρ.write).trans σ.write

end Renaming

/-- The new name, anywhere in the source. -/
def Ident.Variant (ρ : Renaming) (x x' : Ident) : Prop := x'.name = ρ.apply x.name

/-! ## Variants of trees

One relation for each category. A clause for each constructor takes variants of the parts; the
clauses beyond these add or take away what binds no name. -/

mutual

/-- The expression with the identifiers renamed, and with other signs and parentheses. -/
inductive Expr.Variant (ρ : Renaming) : Expr → Expr → Prop
  | mk {ts ts' : Terms} (sign sign' : Option Sign) (h : Terms.Variant ρ ts ts') :
    Expr.Variant ρ (.mk sign ts) (.mk sign' ts')

/-- The same operators in the same order. -/
inductive Terms.Variant (ρ : Renaming) : Terms → Terms → Prop
  | single {t t' : Term} (h : Term.Variant ρ t t') : Terms.Variant ρ (.single t) (.single t')
  | join {left left' : Terms} {right right' : Term} (op : AddOp) (hl : Terms.Variant ρ left left')
    (hr : Term.Variant ρ right right') :
    Terms.Variant ρ (.join left op right) (.join left' op right')

inductive Term.Variant (ρ : Renaming) : Term → Term → Prop
  | single {f f' : Factor} (h : Factor.Variant ρ f f') : Term.Variant ρ (.single f) (.single f')
  | join {left left' : Term} {right right' : Factor} (op : MulOp) (hl : Term.Variant ρ left left')
    (hr : Factor.Variant ρ right right') :
    Term.Variant ρ (.join left op right) (.join left' op right')

/-- Numbers keep their values. Parentheses may be put around a factor, and a sign that comes with
    them has no effect either. -/
inductive Factor.Variant (ρ : Renaming) : Factor → Factor → Prop
  | ident {x x' : Ident} (h : x.Variant ρ x') : Factor.Variant ρ (.ident x) (.ident x')
  | number {n n' : Numeral} (h : n'.value = n.value) : Factor.Variant ρ (.number n) (.number n')
  | group {e e' : Expr} (h : Expr.Variant ρ e e') : Factor.Variant ρ (.group e) (.group e')
  /-- Parentheses are put around the factor. -/
  | wrap {f f' : Factor} (sign : Option Sign) (h : Factor.Variant ρ f f') :
    Factor.Variant ρ f (.group (.mk sign (.single (.single f'))))
  /-- Parentheses around the factor are taken away. -/
  | unwrap {f f' : Factor} (sign : Option Sign) (h : Factor.Variant ρ f f') :
    Factor.Variant ρ (.group (.mk sign (.single (.single f)))) f'

end

/-- The same relation between variants. -/
inductive Condition.Variant (ρ : Renaming) : Condition → Condition → Prop
  | odd {e e' : Expr} (h : e.Variant ρ e') : Condition.Variant ρ (.odd e) (.odd e')
  | compare {left left' right right' : Expr} (rel : Relation) (hl : left.Variant ρ left')
    (hr : right.Variant ρ right') :
    Condition.Variant ρ (.compare left rel right) (.compare left' rel right')

mutual

/-- The statement with the identifiers renamed, and with other empty statements in its blocks. -/
inductive Statement.Variant (ρ : Renaming) : Statement → Statement → Prop
  | empty : Statement.Variant ρ .empty .empty
  | block {ss ss' : List Statement} (h : Statement.Variants ρ ss ss') :
    Statement.Variant ρ (.block ss) (.block ss')
  | read {xs xs' : List Ident} (h : List.Forall₂ (Ident.Variant ρ) xs xs') :
    Statement.Variant ρ (.read xs) (.read xs')
  | write {es es' : List Expr} (h : List.Forall₂ (Expr.Variant ρ) es es') :
    Statement.Variant ρ (.write es) (.write es')
  | call {x x' : Ident} (h : x.Variant ρ x') : Statement.Variant ρ (.call x) (.call x')
  | whileDo {c c' : Condition} {s s' : Statement} (hc : c.Variant ρ c')
    (hs : Statement.Variant ρ s s') : Statement.Variant ρ (.whileDo c s) (.whileDo c' s')
  | assign {x x' : Ident} {e e' : Expr} (hx : x.Variant ρ x') (he : e.Variant ρ e') :
    Statement.Variant ρ (.assign x e) (.assign x' e')
  | ifThen {c c' : Condition} {s s' : Statement} (hc : c.Variant ρ c')
    (hs : Statement.Variant ρ s s') : Statement.Variant ρ (.ifThen c s) (.ifThen c' s')

/-- Statements one by one, with empty ones added and removed in between. -/
inductive Statement.Variants (ρ : Renaming) : List Statement → List Statement → Prop
  | nil : Statement.Variants ρ [] []
  | cons {s s' : Statement} {ss ss' : List Statement} (h : Statement.Variant ρ s s')
    (hs : Statement.Variants ρ ss ss') : Statement.Variants ρ (s :: ss) (s' :: ss')
  /-- An empty statement is added. -/
  | insert {ss ss' : List Statement} (hs : Statement.Variants ρ ss ss') :
    Statement.Variants ρ ss (.empty :: ss')
  /-- An empty statement is removed. -/
  | remove {ss ss' : List Statement} (hs : Statement.Variants ρ ss ss') :
    Statement.Variants ρ (.empty :: ss) ss'

end

/-- The same value under the new name. -/
structure ConstDecl.Variant (ρ : Renaming) (d d' : ConstDecl) : Prop where
  name : d.name.Variant ρ d'.name
  value : d'.value.value = d.value.value

mutual

/-- The same declarations in the same order, under the new names. -/
inductive Block.Variant (ρ : Renaming) : Block → Block → Prop
  | mk {consts consts' : List ConstDecl} {vars vars' : List Ident} {ps ps' : List Procedure}
    {body body' : Statement} (hconsts : List.Forall₂ (ConstDecl.Variant ρ) consts consts')
    (hvars : List.Forall₂ (Ident.Variant ρ) vars vars') (hps : Procedure.Variants ρ ps ps')
    (hbody : body.Variant ρ body') :
    Block.Variant ρ (.mk consts vars ps body) (.mk consts' vars' ps' body')

inductive Procedure.Variant (ρ : Renaming) : Procedure → Procedure → Prop
  | mk {x x' : Ident} {b b' : Block} (hx : x.Variant ρ x') (hb : Block.Variant ρ b b') :
    Procedure.Variant ρ (.mk x b) (.mk x' b')

inductive Procedure.Variants (ρ : Renaming) : List Procedure → List Procedure → Prop
  | nil : Procedure.Variants ρ [] []
  | cons {p p' : Procedure} {ps ps' : List Procedure} (h : Procedure.Variant ρ p p')
    (hs : Procedure.Variants ρ ps ps') : Procedure.Variants ρ (p :: ps) (p' :: ps')

end

/-- **The program has the same bindings** as another one whose names are renamed. -/
def Program.Variant (ρ : Renaming) (p p' : Program) : Prop := p.block.Variant ρ p'.block

/-! ## One difference after the other

Differences are composed clause by clause. Where one difference adds what the other takes away,
neither of them remains. -/

section

variable {ρ σ : Renaming}

/-- The renamings are composed. -/
theorem Ident.Variant.trans {x x' x'' : Ident} (h : x.Variant ρ x') (h' : x'.Variant σ x'') :
    x.Variant (σ.comp ρ) x'' := Eq.trans h' (congrArg σ.apply h)

/-- Elements are compared one after the other. -/
theorem forall₂_trans {α : Type} {R S T : α → α → Prop} {xs xs' xs'' : List α}
    (h : List.Forall₂ R xs xs') (h' : List.Forall₂ S xs' xs'')
    (hT : ∀ x x' x'', R x x' → S x' x'' → T x x'') : List.Forall₂ T xs xs'' := by
  induction h generalizing xs'' with
  | nil =>
    cases h'
    exact .nil
  | cons hx _ ih =>
    cases h' with
    | cons hx' h' => exact .cons (hT _ _ _ hx hx') (ih h')

-- Parentheses put around a factor may be taken away again. So the recursion follows neither of the
-- two derivations alone, but in every case one of the three trees becomes smaller.
mutual

theorem Expr.Variant.trans {e e' e'' : Expr} (h : e.Variant ρ e') (h' : e'.Variant σ e'') :
    e.Variant (σ.comp ρ) e'' :=
  match e, e', e'', h, h' with
  | _, _, _, .mk sign _ h, .mk _ sign'' h' => .mk sign sign'' (h.trans h')
termination_by sizeOf e + sizeOf e' + sizeOf e''

theorem Terms.Variant.trans {ts ts' ts'' : Terms} (h : ts.Variant ρ ts')
    (h' : ts'.Variant σ ts'') : ts.Variant (σ.comp ρ) ts'' :=
  match ts, ts', ts'', h, h' with
  | _, _, _, .single h, .single h' => .single (h.trans h')
  | _, _, _, .join op hl hr, .join _ hl' hr' => .join op (hl.trans hl') (hr.trans hr')
termination_by sizeOf ts + sizeOf ts' + sizeOf ts''

theorem Term.Variant.trans {t t' t'' : Term} (h : t.Variant ρ t') (h' : t'.Variant σ t'') :
    t.Variant (σ.comp ρ) t'' :=
  match t, t', t'', h, h' with
  | _, _, _, .single h, .single h' => .single (h.trans h')
  | _, _, _, .join op hl hr, .join _ hl' hr' => .join op (hl.trans hl') (hr.trans hr')
termination_by sizeOf t + sizeOf t' + sizeOf t''

theorem Factor.Variant.trans {f f' f'' : Factor} (h : f.Variant ρ f') (h' : f'.Variant σ f'') :
    f.Variant (σ.comp ρ) f'' :=
  match f, f', f'', h, h' with
  | _, _, _, .unwrap sign h, h' => .unwrap sign (h.trans h')
  | _, _, _, .ident h, .ident h' => .ident (h.trans h')
  | _, _, _, .number h, .number h' => .number (h'.trans h)
  | _, _, _, .group h, .group h' => .group (h.trans h')
  -- Parentheses that were there from the beginning, or are there in the end.
  | _, _, _, .group (.mk sign _ (.single (.single h))), .unwrap _ h' => .unwrap sign (h.trans h')
  | _, _, _, .wrap _ h, .group (.mk _ sign (.single (.single h'))) => .wrap sign (h.trans h')
  -- Put around and taken away again: they disappear from the composition.
  | _, _, _, .wrap _ h, .unwrap _ h' => h.trans h'
  | _, _, _, h, .wrap sign h' => .wrap sign (h.trans h')
termination_by sizeOf f + sizeOf f' + sizeOf f''

end

theorem Condition.Variant.trans {c c' c'' : Condition} (h : c.Variant ρ c')
    (h' : c'.Variant σ c'') : c.Variant (σ.comp ρ) c'' :=
  match c, c', c'', h, h' with
  | _, _, _, .odd h, .odd h' => .odd (h.trans h')
  | _, _, _, .compare rel hl hr, .compare _ hl' hr' => .compare rel (hl.trans hl') (hr.trans hr')

mutual

theorem Statement.Variant.trans {s s' s'' : Statement} (h : s.Variant ρ s')
    (h' : s'.Variant σ s'') : s.Variant (σ.comp ρ) s'' :=
  match s, s', s'', h, h' with
  | _, _, _, .empty, .empty => .empty
  | _, _, _, .block h, .block h' => .block (h.trans h')
  | _, _, _, .read h, .read h' => .read (forall₂_trans h h' fun _ _ _ => Ident.Variant.trans)
  | _, _, _, .write h, .write h' => .write (forall₂_trans h h' fun _ _ _ => Expr.Variant.trans)
  | _, _, _, .call h, .call h' => .call (h.trans h')
  | _, _, _, .whileDo hc hs, .whileDo hc' hs' => .whileDo (hc.trans hc') (hs.trans hs')
  | _, _, _, .assign hx he, .assign hx' he' => .assign (hx.trans hx') (he.trans he')
  | _, _, _, .ifThen hc hs, .ifThen hc' hs' => .ifThen (hc.trans hc') (hs.trans hs')
termination_by sizeOf s + sizeOf s' + sizeOf s''

theorem Statement.Variants.trans {ss ss' ss'' : List Statement} (h : Statement.Variants ρ ss ss')
    (h' : Statement.Variants σ ss' ss'') : Statement.Variants (σ.comp ρ) ss ss'' :=
  match ss, ss', ss'', h, h' with
  | _, _, _, .nil, .nil => .nil
  | _, _, _, .remove hs, hs' => .remove (hs.trans hs')
  | _, _, _, .cons h hs, .cons h' hs' => .cons (h.trans h') (hs.trans hs')
  -- An empty statement in the middle list may be an old one, or have been added.
  | _, _, _, .cons .empty hs, .remove hs' => .remove (hs.trans hs')
  | _, _, _, .insert hs, .cons .empty hs' => .insert (hs.trans hs')
  | _, _, _, .insert hs, .remove hs' => hs.trans hs'
  | _, _, _, hs, .insert hs' => .insert (hs.trans hs')
termination_by sizeOf ss + sizeOf ss' + sizeOf ss''

end

theorem ConstDecl.Variant.trans {d d' d'' : ConstDecl} (h : d.Variant ρ d')
    (h' : d'.Variant σ d'') : d.Variant (σ.comp ρ) d'' :=
  ⟨h.name.trans h'.name, h'.value.trans h.value⟩

mutual

/-- Declarations are composed one by one. -/
theorem Block.Variant.trans {b b' b'' : Block} (h : b.Variant ρ b') (h' : b'.Variant σ b'') :
    b.Variant (σ.comp ρ) b'' :=
  match b, b', b'', h, h' with
  | _, _, _, .mk hconsts hvars hps hbody, .mk hconsts' hvars' hps' hbody' =>
    .mk (forall₂_trans hconsts hconsts' fun _ _ _ => ConstDecl.Variant.trans)
      (forall₂_trans hvars hvars' fun _ _ _ => Ident.Variant.trans) (hps.trans hps')
      (hbody.trans hbody')
termination_by sizeOf b

theorem Procedure.Variant.trans {p p' p'' : Procedure} (h : p.Variant ρ p')
    (h' : p'.Variant σ p'') : p.Variant (σ.comp ρ) p'' :=
  match p, p', p'', h, h' with
  | _, _, _, .mk hx hb, .mk hx' hb' => .mk (hx.trans hx') (hb.trans hb')
termination_by sizeOf p

theorem Procedure.Variants.trans {ps ps' ps'' : List Procedure} (h : Procedure.Variants ρ ps ps')
    (h' : Procedure.Variants σ ps' ps'') : Procedure.Variants (σ.comp ρ) ps ps'' :=
  match ps, ps', ps'', h, h' with
  | _, _, _, .nil, .nil => .nil
  | _, _, _, .cons h hs, .cons h' hs' => .cons (h.trans h') (hs.trans hs')
termination_by sizeOf ps

end

/-- **A variant of a variant** is a variant. -/
theorem Program.Variant.trans {p p' p'' : Program} (h : p.Variant ρ p') (h' : p'.Variant σ p'') :
    p.Variant (σ.comp ρ) p'' := Block.Variant.trans h h'

end

/-! ## Identifiers in pairs

What a clause adds or takes away contains no identifier, so both lists have the same length. -/

section

variable {ρ : Renaming}

/-- The lists have the same length, and the identifiers at the same place are variants. -/
abbrev Paired (ρ : Renaming) : List Ident → List Ident → Prop := List.Forall₂ (Ident.Variant ρ)

mutual

/-- The identifiers of an expression, in the order of the text. -/
theorem Expr.Variant.idents {e e' : Expr} : e.Variant ρ e' → Paired ρ e.idents e'.idents
  | .mk _ _ h => h.idents

theorem Terms.Variant.idents {ts ts' : Terms} : ts.Variant ρ ts' → Paired ρ ts.idents ts'.idents
  | .single h => Term.Variant.idents h
  | .join _ hl hr => List.rel_append hl.idents hr.idents

theorem Term.Variant.idents {t t' : Term} : t.Variant ρ t' → Paired ρ t.idents t'.idents
  | .single h => Factor.Variant.idents h
  | .join _ hl hr => List.rel_append hl.idents hr.idents

theorem Factor.Variant.idents {f f' : Factor} : f.Variant ρ f' → Paired ρ f.idents f'.idents
  | .ident h => .cons h .nil
  | .number _ => .nil
  | .group h => Expr.Variant.idents h
  | .wrap _ h => by
    have hf := h.idents
    exact hf
  | .unwrap _ h => by
    have hf := h.idents
    exact hf

end

theorem Condition.Variant.idents {c c' : Condition} : c.Variant ρ c' → Paired ρ c.idents c'.idents
  | .odd h => h.idents
  | .compare _ hl hr => List.rel_append hl.idents hr.idents

mutual

/-- The identifiers of a statement, in the order of its code. -/
theorem Statement.Variant.idents {s s' : Statement} : s.Variant ρ s' → Paired ρ s.idents s'.idents
  | .empty => .nil
  | .block h => Statement.Variants.idents h
  | .read h => h
  | .write h => List.rel_flatMap h fun _ _ => Expr.Variant.idents
  | .call h => .cons h .nil
  | .whileDo hc hs => List.rel_append hc.idents hs.idents
  | .assign hx he => List.rel_append he.idents (.cons hx .nil)
  | .ifThen hc hs => List.rel_append hc.idents hs.idents

theorem Statement.Variants.idents {ss ss' : List Statement} :
    Statement.Variants ρ ss ss' → Paired ρ (Statement.identsOf ss) (Statement.identsOf ss')
  | .nil => .nil
  | .cons h hs => List.rel_append h.idents hs.idents
  | .insert hs => by
    have hss := hs.idents
    exact hss
  | .remove hs => by
    have hss := hs.idents
    exact hss

end

/-- The declared names of constants. -/
theorem ConstDecl.Variant.names {ds ds' : List ConstDecl}
    (h : List.Forall₂ (ConstDecl.Variant ρ) ds ds') :
    Paired ρ (ds.map ConstDecl.name) (ds'.map ConstDecl.name) := by
  induction h with
  | nil => exact .nil
  | cons hd _ ih => exact .cons hd.name ih

mutual

theorem Block.Variant.idents {b b' : Block} : b.Variant ρ b' → Paired ρ b.idents b'.idents
  | .mk hconsts hvars hps hbody =>
    List.rel_append (List.rel_append (List.rel_append (ConstDecl.Variant.names hconsts) hvars)
      hps.idents) hbody.idents

theorem Procedure.Variant.idents {p p' : Procedure} : p.Variant ρ p' → Paired ρ p.idents p'.idents
  | .mk hx hb => .cons hx hb.idents

theorem Procedure.Variants.idents {ps ps' : List Procedure} :
    Procedure.Variants ρ ps ps' → Paired ρ (Procedure.identsOf ps) (Procedure.identsOf ps')
  | .nil => .nil
  | .cons h hs => List.rel_append h.idents hs.idents

end

/-- **The identifiers of a variant** stand where those of the program stand. -/
theorem Program.Variant.idents {p p' : Program} (h : p.Variant ρ p') :
    Paired ρ p.block.idents p'.block.idents := Block.Variant.idents h

end

end PL0

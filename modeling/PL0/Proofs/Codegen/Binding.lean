import PL0.Proofs.Codegen.Variant
import PL0.Proofs.Codegen.WellScoped

/-!
# `Codegen.Binding` — code depends on the bindings only

Levels and slots come from the order in which names are declared, not from the names. So the scopes
of a variant of a program are the scopes of the program, renamed (`Environment.rename`), and a name
leads in them to where the old name led.

`Corresponds` compares two answers of code generation: the same code, or errors in corresponding
places. It goes along a sequence (`Corresponds.bind`) as identifiers do.

Main statement: `Program.compile_variant`.
-/

namespace PL0

open Codegen

variable {ρ : Renaming}

/-! ## Scopes under other names

A renaming is injective, so two names are the same after it exactly if they were before. Lookup and
declaration only compare names, and therefore commute with the renaming; slots are not touched. -/

/-- The same symbols under other names. -/
def Scope.rename (ρ : Renaming) (s : Scope) : Scope :=
  ⟨s.symbols.map fun (x, sym) => (ρ.apply x, sym)⟩

namespace Scope

/-- A new name is found in the renamed scope where the old one was found. -/
theorem get?_rename (s : Scope) (x : String) : (s.rename ρ).get? (ρ.apply x) = s.get? x := by
  obtain ⟨symbols⟩ := s
  unfold get? rename
  induction symbols with
  | nil => rfl
  | cons entry symbols ih =>
    obtain ⟨y, sym⟩ := entry
    rw [List.map_cons, List.lookup_cons, List.lookup_cons, ih]
    have hbeq : (ρ.apply x == ρ.apply y) = (x == y) := by
      rw [Bool.eq_iff_iff, beq_iff_eq, beq_iff_eq]
      exact ρ.injective.eq_iff
    rw [hbeq]

/-- A renamed scope takes a new name as the scope takes the old one. -/
theorem declare_rename (s : Scope) (x : String) (kind : SymbolKind) (value : Option Int) :
    (s.rename ρ).declare (ρ.apply x) kind value =
      ((s.declare x kind value).1, (s.declare x kind value).2.rename ρ) := by
  unfold declare
  rw [get?_rename]
  cases s.get? x with
  | some old => rfl
  | none => simp [rename, size]

theorem size_rename (s : Scope) : (s.rename ρ).size = s.size := List.length_map _

/-- The scope of the channels stays as it is, since a renaming keeps their names. -/
theorem channels_rename : channels.rename ρ = channels := by
  simp [rename, channels, ρ.read, ρ.write]

/-- Declarations in turn commute with the renaming if each of them does. -/
theorem foldl_rename {α : Type} {R : α → α → Prop} {f : Scope → α → Scope} {xs xs' : List α}
    (h : List.Forall₂ R xs xs') (hf : ∀ s x x', R x x' → f (s.rename ρ) x' = (f s x).rename ρ)
    (s : Scope) : xs'.foldl f (s.rename ρ) = (xs.foldl f s).rename ρ := by
  refine List.rel_foldl (P := fun (t t' : Scope) => t' = t.rename ρ) ?_ rfl h
  rintro t _ rfl x x' hx
  exact hf t x x' hx

end Scope

/-- The same scopes with other names in them. -/
def Environment.rename (ρ : Renaming) (env : Environment) : Environment :=
  ⟨env.scopes.map (Scope.rename ρ), env.base.rename ρ⟩

namespace Environment

theorem initial_rename : initial.rename ρ = initial := by
  unfold initial rename
  rw [Scope.channels_rename]
  rfl

/-- **A new name leads to where the old name led.** -/
theorem resolve_rename (env : Environment) (x : String) :
    (env.rename ρ).resolve (ρ.apply x) = env.resolve x := by
  have hframes : (env.rename ρ).frames = env.frames.map (Scope.rename ρ) := by
    unfold frames rename
    rw [List.map_append]
    rfl
  -- Scope by scope: where the old name is missing, the new one is.
  have hin (ss : List Scope) (n : Nat) :
      resolveIn (ρ.apply x) n (ss.map (Scope.rename ρ)) = resolveIn x n ss := by
    induction ss generalizing n with
    | nil => rfl
    | cons s ss ih => rw [List.map_cons, resolveIn, resolveIn, Scope.get?_rename, ih]
  unfold resolve
  rw [hframes, hin]

/-- A name that the renaming keeps leads to where it led. -/
theorem channel_rename (env : Environment) {name : String} (h : ρ.apply name = name) :
    (env.rename ρ).channel name = env.channel name := by
  unfold channel
  rw [← env.resolve_rename (ρ := ρ) name, h]

end Environment

/-! ## Answers in corresponding places

Two programs with the same code are easily compared; two that fail must fail at corresponding
identifiers. The lists of a part grow as parts are put together, so what is remembered is not a
position but a pair of the zipped lists. -/

/-- The same answer, or errors in corresponding places: the undeclared identifiers stand at the same
    place of the two lists, and all other errors are the same. -/
inductive Corresponds {α : Type} (xs xs' : List Ident) :
    Except CodegenError α → Except CodegenError α → Prop
  | ok (a : α) : Corresponds xs xs' (.ok a) (.ok a)
  | undeclared {x x' : Ident} (h : (x, x') ∈ xs.zip xs') :
    Corresponds xs xs' (.error (.undeclared x)) (.error (.undeclared x'))
  | missingChannel (name : String) :
    Corresponds xs xs' (.error (.missingChannel name)) (.error (.missingChannel name))
  | buffer (e : PatchError) : Corresponds xs xs' (.error (.buffer e)) (.error (.buffer e))

namespace Corresponds

variable {α β : Type} {xs xs' ys ys' : List Ident} {r r' : Except CodegenError α}
  {f f' : α → Except CodegenError β}

theorem pure (a : α) : Corresponds xs xs' (pure a) (pure a) := .ok a

/-- The lists may become longer. -/
theorem mono (h : Corresponds xs xs' r r') (hsub : xs.zip xs' ⊆ ys.zip ys') :
    Corresponds ys ys' r r' := by
  cases h with
  | ok a => exact .ok a
  | undeclared hx => exact .undeclared (hsub hx)
  | missingChannel name => exact .missingChannel name
  | buffer e => exact .buffer e

/-- Answers without identifiers are the same. -/
theorem of_nil (h : Corresponds [] [] r r') : Corresponds xs xs' r r' :=
  h.mono (List.nil_subset _)

/-- **One part after the other**, each with its identifiers. -/
theorem bind (hr : Corresponds xs xs' r r') (hlen : xs.length = xs'.length)
    (hf : ∀ a, Corresponds ys ys' (f a) (f' a)) :
    Corresponds (xs ++ ys) (xs' ++ ys') (r >>= f) (r' >>= f') := by
  -- Equal lengths keep the pairs of the two parts apart.
  have hzip : (xs ++ ys).zip (xs' ++ ys') = xs.zip xs' ++ ys.zip ys' := List.zip_append hlen
  cases hr with
  | ok a =>
    refine (hf a).mono ?_
    rw [hzip]
    exact List.subset_append_right _ _
  | undeclared hx =>
    refine .undeclared ?_
    rw [hzip]
    exact List.mem_append_left _ hx
  | missingChannel name => exact .missingChannel name
  | buffer e => exact .buffer e

/-- A part without identifiers, and what follows it. -/
theorem bind_nil (hr : Corresponds [] [] r r') (hf : ∀ a, Corresponds ys ys' (f a) (f' a)) :
    Corresponds ys ys' (r >>= f) (r' >>= f') := hr.bind rfl hf

/-- What follows has no identifiers. -/
theorem bind_last (hr : Corresponds xs xs' r r') (hf : ∀ a, Corresponds [] [] (f a) (f' a)) :
    Corresponds xs xs' (r >>= f) (r' >>= f') := by
  cases hr with
  | ok a => exact (hf a).of_nil
  | undeclared hx => exact .undeclared hx
  | missingChannel name => exact .missingChannel name
  | buffer e => exact .buffer e

/-- Phrases in turn, each with its own identifiers. -/
theorem collect {γ : Type} {R : γ → γ → Prop} {g : γ → List Ident} {zs zs' : List γ}
    {f f' : γ → Except CodegenError (List Instruction)} (h : List.Forall₂ R zs zs')
    (hf : ∀ z z', R z z' → (g z).length = (g z').length ∧
      Corresponds (g z) (g z') (f z) (f' z')) :
    Corresponds (zs.flatMap g) (zs'.flatMap g) (collect f zs) (collect f' zs') := by
  induction h with
  | nil => exact .pure []
  | cons hz _ ih =>
    obtain ⟨hlen, hfz⟩ := hf _ _ hz
    exact hfz.bind hlen fun is => ih.bind_last fun js => .pure _

end Corresponds

/-- An offset is a matter of the number alone. -/
theorem corresponds_offset (n : Nat) : Corresponds [] [] (offset n) (offset n) := by
  unfold offset
  cases Code.offset? n with
  | some v => exact .ok v
  | none => exact .buffer _

theorem corresponds_accessCode (op : OpCode) (a : Address) :
    Corresponds [] [] (accessCode op a) (accessCode op a) :=
  (corresponds_offset _).bind_nil fun _ => .pure _

/-- An empty statement has no code, so one more of them moves nothing. -/
theorem Statement.codes_empty (env : Environment) (a : Nat) (ss : List Statement) :
    Statement.codes env a (.empty :: ss) = Statement.codes env a ss := by
  simp [Statement.codes, Statement.code]

section

variable (env : Environment)

/-- Both programs find the channels at the same place. -/
theorem corresponds_channel {name : String} (h : ρ.apply name = name) :
    Corresponds [] [] (env.channel name) ((env.rename ρ).channel name) := by
  rw [env.channel_rename h]
  unfold Environment.channel
  cases env.resolve name with
  | some a => exact .ok a
  | none => exact .missingChannel name

/-- This is where an identifier may turn out to be undeclared, in both programs or in neither. -/
theorem corresponds_locate {x x' : Ident} (h : x.Variant ρ x') :
    Corresponds [x] [x'] (env.locate x) ((env.rename ρ).locate x') := by
  unfold Environment.locate
  rw [show x'.name = ρ.apply x.name from h, env.resolve_rename]
  cases env.resolve x.name with
  | some a => exact .ok a
  | none => exact .undeclared (List.mem_singleton_self _)

/-! ## The code of variants

By induction on what makes a variant. Signs and parentheses do not occur in the code; empty
statements occur neither in the code nor among the identifiers. -/

mutual

/-- **The code of an expression**, whatever sign stands in front. -/
theorem Expr.Variant.code {e e' : Expr} : e.Variant ρ e' →
    Corresponds e.idents e'.idents (e.code env) (e'.code (env.rename ρ))
  | .mk _ _ h => h.code

theorem Terms.Variant.code {ts ts' : Terms} : ts.Variant ρ ts' →
    Corresponds ts.idents ts'.idents (ts.code env) (ts'.code (env.rename ρ))
  | .single h => Term.Variant.code h
  | .join _ hl hr => by
    refine hl.code.bind hl.idents.length_eq fun ls => ?_
    exact hr.code.bind_last fun rs => .pure _

theorem Term.Variant.code {t t' : Term} : t.Variant ρ t' →
    Corresponds t.idents t'.idents (t.code env) (t'.code (env.rename ρ))
  | .single h => Factor.Variant.code h
  | .join _ hl hr => by
    refine hl.code.bind hl.idents.length_eq fun ls => ?_
    exact hr.code.bind_last fun rs => .pure _

/-- Parentheses put around a factor or taken away leave its code as it is. -/
theorem Factor.Variant.code {f f' : Factor} : f.Variant ρ f' →
    Corresponds f.idents f'.idents (f.code env) (f'.code (env.rename ρ))
  | .ident h => (corresponds_locate env h).bind_last fun _ => corresponds_accessCode _ _
  | .number h => by
    rw [Factor.code, Factor.code, h]
    exact .pure _
  | .group h => Expr.Variant.code h
  | .wrap _ h => by
    have hf := h.code
    exact hf
  | .unwrap _ h => by
    have hf := h.code
    exact hf

end

/-- The code of a condition. -/
theorem Condition.Variant.code {c c' : Condition} : c.Variant ρ c' →
    Corresponds c.idents c'.idents (c.code env) (c'.code (env.rename ρ))
  | .odd h => (h.code env).bind_last fun ls => .pure _
  | .compare _ hl hr => by
    refine (hl.code env).bind hl.idents.length_eq fun ls => ?_
    exact (hr.code env).bind_last fun rs => .pure _

/-- The code for a target of `read`: the target may be undeclared, the channel is found. -/
theorem corresponds_readCode (input : Address) {x x' : Ident} (h : x.Variant ρ x') :
    Corresponds [x] [x'] (readCode env input x) (readCode (env.rename ρ) input x') := by
  refine (corresponds_locate env h).bind_last fun target => ?_
  refine (corresponds_accessCode _ _).bind_nil fun ls => ?_
  exact (corresponds_accessCode _ _).bind_nil fun ss => .pure _

/-- The code for a value of `write`. -/
theorem corresponds_writeCode (output : Address) {e e' : Expr} (h : e.Variant ρ e') :
    Corresponds e.idents e'.idents (writeCode env output e)
      (writeCode (env.rename ρ) output e') := by
  refine (h.code env).bind_last fun is => ?_
  exact (corresponds_accessCode _ _).bind_nil fun ss => .pure _

mutual

/-- **The code of a statement** at the same address. -/
theorem Statement.Variant.code {s s' : Statement} (a : Nat) : s.Variant ρ s' →
    Corresponds s.idents s'.idents (s.code env a) (s'.code (env.rename ρ) a)
  | .empty => .pure []
  | .block h => Statement.Variants.code a h
  | .read h => by
    have hall (input : Address) := Corresponds.collect (g := fun x => [x]) h fun _ _ hx =>
      ⟨rfl, corresponds_readCode env input hx⟩
    simp only [List.flatMap_singleton'] at hall
    exact (corresponds_channel env ρ.read).bind_nil hall
  | .write h => by
    have hall (output : Address) := Corresponds.collect h fun _ _ he =>
      ⟨he.idents.length_eq, corresponds_writeCode env output he⟩
    exact (corresponds_channel env ρ.write).bind_nil hall
  | .call h => (corresponds_locate env h).bind_last fun addr => corresponds_accessCode _ _
  | .whileDo hc hs => by
    -- The tests have the same code, so the bodies start at the same address.
    refine (hc.code env).bind hc.idents.length_eq fun test => ?_
    refine (hs.code _).bind_last fun is => ?_
    refine (corresponds_offset _).bind_nil fun top => ?_
    exact (corresponds_offset _).bind_nil fun exit => .pure _
  | .assign hx he => by
    refine (he.code env).bind he.idents.length_eq fun is => ?_
    refine (corresponds_locate env hx).bind_last fun target => ?_
    exact (corresponds_accessCode _ _).bind_nil fun ss => .pure _
  | .ifThen hc hs => by
    refine (hc.code env).bind hc.idents.length_eq fun test => ?_
    refine (hs.code _).bind_last fun is => ?_
    exact (corresponds_offset _).bind_nil fun skip => .pure _

/-- Empty statements more or less make no difference to where the next statement starts. -/
theorem Statement.Variants.code {ss ss' : List Statement} (a : Nat) :
    Statement.Variants ρ ss ss' → Corresponds (Statement.identsOf ss) (Statement.identsOf ss')
      (Statement.codes env a ss) (Statement.codes (env.rename ρ) a ss')
  | .nil => .pure []
  | .cons h hs => by
    refine (h.code a).bind h.idents.length_eq fun is => ?_
    exact (hs.code _).bind_last fun js => .pure _
  | .insert hs => by
    rw [Statement.codes_empty]
    have hss := hs.code a
    exact hss
  | .remove hs => by
    rw [Statement.codes_empty]
    have hss := hs.code a
    exact hss

end

end

/-! ## The code of blocks

A block is a variant of another one if their declarations are, one by one. So both declare in the
same order and build the same scopes, up to the names. -/

section

variable (s : Scope)

/-- A declaration under the new name. -/
theorem Ident.Variant.declare {x x' : Ident} (h : x.Variant ρ x') (kind : SymbolKind)
    (value : Option Int) : (s.rename ρ).declare x'.name kind value =
      ((s.declare x.name kind value).1, (s.declare x.name kind value).2.rename ρ) := by
  rw [show x'.name = ρ.apply x.name from h, Scope.declare_rename]

theorem ConstDecl.Variant.declareConst {d d' : ConstDecl} (h : d.Variant ρ d') :
    (s.rename ρ).declareConst d' = (s.declareConst d).rename ρ := by
  unfold Scope.declareConst
  rw [Ident.Variant.declare s h.name, h.value]

theorem Ident.Variant.declareVar {x x' : Ident} (h : x.Variant ρ x') :
    (s.rename ρ).declareVar x' = (s.declareVar x).rename ρ := by
  unfold Scope.declareVar
  rw [Ident.Variant.declare s h]

theorem Procedure.Variant.declareProcedure {p p' : Procedure} (h : p.Variant ρ p') :
    (s.rename ρ).declareProcedure p' = (s.declareProcedure p).rename ρ := by
  cases h with
  | mk hx hb =>
    unfold Scope.declareProcedure
    exact congrArg Prod.snd (Ident.Variant.declare s hx .procedure none)

end

/-- Procedures correspond one by one. -/
theorem Procedure.Variants.forall₂ {ps ps' : List Procedure} (h : Procedure.Variants ρ ps ps') :
    List.Forall₂ (Procedure.Variant ρ) ps ps' := by
  induction ps generalizing ps' with
  | nil =>
    cases h
    exact .nil
  | cons p ps ih =>
    cases h with
    | cons hp hs => exact .cons hp (ih hs)

/-- The code of constants uses slots and values, not names. -/
theorem corresponds_constsCode {ds ds' : List ConstDecl}
    (h : List.Forall₂ (ConstDecl.Variant ρ) ds ds') (s : Scope) :
    Corresponds [] [] (constsCode s ds) (constsCode (s.rename ρ) ds') := by
  induction h generalizing s with
  | nil => exact .pure []
  | @cons d d' ds ds' hd hds ih =>
    have hfirst : Corresponds [] [] (constCode s d) (constCode (s.rename ρ) d') := by
      unfold constCode
      rw [Ident.Variant.declare s hd.name, hd.value]
      exact (corresponds_offset _).bind_nil fun _ => .pure _
    rw [constsCode, constsCode, hd.declareConst]
    exact hfirst.bind_nil fun _ => (ih _).bind_nil fun _ => .pure _

/-- The scopes of a block, under the new names. -/
theorem Block.Variant.scopes {b b' : Block} (h : b.Variant ρ b') :
    b'.dataScope = b.dataScope.rename ρ ∧ b'.scope = b.scope.rename ρ := by
  cases h with
  | @mk consts consts' vars vars' ps ps' body body' hconsts hvars hps hbody =>
    have hconsts : consts'.foldl Scope.declareConst Scope.empty =
        (consts.foldl Scope.declareConst Scope.empty).rename ρ :=
      Scope.foldl_rename hconsts (fun s _ _ hd => hd.declareConst s) Scope.empty
    have hdata : (Block.mk consts' vars' ps' body').dataScope =
        (Block.mk consts vars ps body).dataScope.rename ρ := by
      show vars'.foldl Scope.declareVar (consts'.foldl Scope.declareConst Scope.empty) = _
      rw [hconsts]
      exact Scope.foldl_rename hvars (fun s _ _ hx => hx.declareVar s) _
    refine ⟨hdata, ?_⟩
    unfold Block.scope
    rw [hdata]
    exact Scope.foldl_rename hps.forall₂ (fun s _ _ hp => hp.declareProcedure s) _

mutual

/-- **The code of a block** at the same address. -/
theorem Block.Variant.code (env : Environment) (a : Nat) {b b' : Block} : b.Variant ρ b' →
    Corresponds b.idents b'.idents (b.code env a) (b'.code (env.rename ρ) a)
  | @Block.Variant.mk _ consts consts' vars vars' ps ps' body body' hconsts hvars hps hbody => by
    obtain ⟨hdata, hscope⟩ := (Block.Variant.mk hconsts hvars hps hbody).scopes
    have hnames := (List.rel_append (ConstDecl.Variant.names hconsts) hvars).length_eq
    rw [Block.code, Block.code, hdata, hscope, Block.idents, Block.idents,
      List.append_assoc _ (Procedure.identsOf ps), List.append_assoc _ (Procedure.identsOf ps')]
    -- The declared names are among the identifiers of a block, though none of them can be
    -- undeclared.
    refine (corresponds_constsCode hconsts Scope.empty).of_nil.bind hnames fun cs => ?_
    refine (hps.code env _ _).bind hps.idents.length_eq fun is => ?_
    refine (hbody.code (env.nest _) _).bind_last fun js => ?_
    rw [Scope.size_rename]
    exact (corresponds_offset _).bind_nil fun _ => .pure _

/-- The code of a procedure, whose name is declared in front of its block. -/
theorem Procedure.Variant.code (env : Environment) (s : Scope) (a : Nat) {p p' : Procedure} :
    p.Variant ρ p' →
      Corresponds p.idents p'.idents (p.code env s a) (p'.code (env.rename ρ) (s.rename ρ) a)
  | @Procedure.Variant.mk _ x x' b b' hx hb => by
    have hscope := (Procedure.Variant.mk hx hb).declareProcedure s
    rw [Procedure.code, Procedure.code, Ident.Variant.declare s hx, hscope]
    have hblock := hb.code (env.nest (s.declareProcedure (.mk x b))) (a + 3)
    refine Corresponds.mono ?_ (List.subset_cons_self (x, x') (b.idents.zip b'.idents))
    refine (corresponds_offset _).bind_nil fun slot => ?_
    refine (corresponds_offset _).bind_nil fun entry => hblock.bind_last fun is => ?_
    exact (corresponds_offset _).bind_nil fun skip => .pure _

/-- Each procedure sees the names of those in front of it. -/
theorem Procedure.Variants.code (env : Environment) (s : Scope) (a : Nat)
    {ps ps' : List Procedure} : Procedure.Variants ρ ps ps' →
      Corresponds (Procedure.identsOf ps) (Procedure.identsOf ps') (Procedure.codes env s a ps)
        (Procedure.codes (env.rename ρ) (s.rename ρ) a ps')
  | .nil => .pure []
  | @Procedure.Variants.cons _ p p' ps ps' h hs => by
    rw [Procedure.codes, Procedure.codes, h.declareProcedure]
    refine (h.code env s a).bind h.idents.length_eq fun is => ?_
    exact (hs.code env _ _).bind_last fun js => .pure _

end

namespace Program

/-- **Code depends on the bindings only.** A program and a variant of it have the same code. Where
    they have none, the identifier that is not declared stands at the same place in both, under its
    new name in the variant. No other error is left but for programs with more instructions or slots
    than words can number, and this is the same error in both. -/
theorem compile_variant {p p' : Program} (h : p.Variant ρ p') :
    (∃ code, p.compile.1 = .ok code ∧ p'.compile.1 = .ok code) ∨
    (∃ x x', (x, x') ∈ p.block.idents.zip p'.block.idents ∧ x'.name = ρ.apply x.name ∧
      p.compile.1 = .error (.undeclared x) ∧ p'.compile.1 = .error (.undeclared x')) ∨
    ∃ e, (Word.greatest < p.block.codeSize ∨ Word.greatest < p.block.slots) ∧
      p.compile.1 = .error e ∧ p'.compile.1 = .error e := by
  have hcode := Block.Variant.code Environment.initial 0 h
  rw [Environment.initial_rename] at hcode
  rw [compile_eq, compile_eq]
  -- Programs that words can number have no errors but undeclared identifiers.
  have hlarge {e : CodegenError} (he : p.block.code Environment.initial 0 = .error e)
      (hne : ∀ x, e ≠ .undeclared x) :
      Word.greatest < p.block.codeSize ∨ Word.greatest < p.block.slots := by
    by_contra hfits
    rw [not_or, Int.not_lt, Int.not_lt] at hfits
    have hsize : ((0 + p.block.codeSize : Nat) : Int) ≤ Word.greatest := by omega
    have hforetold := p.block.foretold_code Environment.shows_initial hsize hfits.2
    obtain ⟨m, -, rfl⟩ := hforetold.of_eq_error he
    exact hne _ rfl
  revert hcode hlarge
  generalize p.block.code Environment.initial 0 = r
  generalize p'.block.code Environment.initial 0 = r'
  intro hcode hlarge
  cases hcode with
  | ok is => exact .inl ⟨is.toArray, rfl, rfl⟩
  | @undeclared x x' hx =>
    have hname : x.Variant ρ x' := (List.forall₂_iff_zip.1 h.idents).2 hx
    exact .inr (.inl ⟨x, x', hx, hname, rfl, rfl⟩)
  | missingChannel name => exact .inr (.inr ⟨_, hlarge rfl nofun, rfl, rfl⟩)
  | buffer e => exact .inr (.inr ⟨_, hlarge rfl nofun, rfl, rfl⟩)

/-- `countdown` with the names `x` and `p` interchanged. -/
def interchanged : Program :=
  let x : Ident := ⟨"p", 5⟩
  let p : Ident := ⟨"x", 18⟩
  let loop : Statement :=
    .whileDo (.compare (.mk none (.single (.single (.ident x)))) .gt
        (.mk none (.single (.single (.number ⟨0, 31⟩)))))
      (.assign x (.mk none (.join (.single (.single (.ident x))) .sub
        (.single (.number ⟨1, 45⟩)))))
  ⟨.mk [] [x] [.mk p (.mk [] [] [] loop)]
    (.block [.read [x], .call p, .write [.mk none (.single (.single (.ident x)))]])⟩

/-- The program
    `var p; procedure x; while (p) > 0 do p := -p - 1; begin; read(p); call x;; write(p) end .` -/
def disguised : Program :=
  let x : Ident := ⟨"p", 4⟩
  let p : Ident := ⟨"x", 17⟩
  let loop : Statement :=
    .whileDo (.compare (.mk none (.single (.single
          (.group (.mk none (.single (.single (.ident x)))))))) .gt
        (.mk none (.single (.single (.number ⟨0, 32⟩)))))
      (.assign x (.mk (some .minus) (.join (.single (.single (.ident x))) .sub
        (.single (.number ⟨1, 47⟩)))))
  ⟨.mk [] [x] [.mk p (.mk [] [] [] loop)] (.block [.empty, .read [x], .call p, .empty,
    .write [.mk none (.single (.single (.ident x)))]])⟩

/-- `countdown` is renamed by an exchange of its two names. -/
theorem countdown_interchanged :
    countdown.Variant (.swap ⟨"x", 4⟩ ⟨"p", 17⟩ (by decide) (by decide)) interchanged := by
  have hx : Ident.Variant (.swap ⟨"x", 4⟩ ⟨"p", 17⟩ (by decide) (by decide)) ⟨"x", 4⟩ ⟨"p", 5⟩ :=
    (Equiv.swap_apply_left "x" "p").symm
  have hp : Ident.Variant (.swap ⟨"x", 4⟩ ⟨"p", 17⟩ (by decide) (by decide)) ⟨"p", 17⟩ ⟨"x", 18⟩ :=
    (Equiv.swap_apply_right "x" "p").symm
  refine .mk .nil (.cons hx .nil) (.cons (.mk hp (.mk .nil .nil .nil (.whileDo ?_ ?_))) .nil) ?_
  · exact .compare _ (.mk _ _ (.single (.single (.ident hx))))
      (.mk _ _ (.single (.single (.number rfl))))
  · exact .assign hx (.mk _ _ (.join _ (.single (.single (.ident hx))) (.single (.number rfl))))
  · exact .block (.cons (.read (.cons hx .nil)) (.cons (.call hp)
      (.cons (.write (.cons (.mk _ _ (.single (.single (.ident hx)))) .nil)) .nil)))

/-- No name changes from one to the other, only what binds none. -/
theorem interchanged_disguised : interchanged.Variant .id disguised := by
  have hx : Ident.Variant .id ⟨"p", 5⟩ ⟨"p", 4⟩ := rfl
  have hp : Ident.Variant .id ⟨"x", 18⟩ ⟨"x", 17⟩ := rfl
  refine .mk .nil (.cons hx .nil) (.cons (.mk hp (.mk .nil .nil .nil (.whileDo ?_ ?_))) .nil) ?_
  · exact .compare _ (.mk _ _ (.single (.single (.wrap none (.ident hx)))))
      (.mk _ _ (.single (.single (.number rfl))))
  · exact .assign hx (.mk _ _ (.join _ (.single (.single (.ident hx))) (.single (.number rfl))))
  · exact .block (.insert (.cons (.read (.cons hx .nil)) (.cons (.call hp) (.insert
      (.cons (.write (.cons (.mk _ _ (.single (.single (.ident hx)))) .nil)) .nil)))))

/-- Both differences together leave the code of `countdown` as it is. -/
theorem disguised_compile :
    (∃ ρ, countdown.Variant ρ disguised) ∧ disguised.compile.1 = .ok countdownCode := by
  have h := countdown_interchanged.trans interchanged_disguised
  refine ⟨⟨_, h⟩, ?_⟩
  rcases compile_variant h with ⟨code, hcode, hcode'⟩ | ⟨x, x', -, -, herror, -⟩ | ⟨e, -, herror, -⟩
  · rw [hcode', ← hcode, compile_countdown]
  · rw [compile_countdown] at herror
    cases herror
  · rw [compile_countdown] at herror
    cases herror

end Program

end PL0

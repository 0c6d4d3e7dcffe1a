import Mathlib
import OnePass.Proofs.Boundaries
import OnePass.Proofs.Correspondence

namespace OnePass

namespace Build

variable {tok : Token} {rest : List Token}

theorem terms_semicolon (i : Nat) (rest : List Token) (h : tok.type = .semicolon) :
    terms i (tok :: rest) = conclude tok := by
  rcases terms_cons i tok rest with ⟨-, heq⟩ | ⟨o, rest', -, hid, -⟩ | ⟨hne, -⟩
  · exact heq
  · simp [h] at hid
  · exact absurd h hne

theorem terms_call {o : Token} (i : Nat) (rest : List Token) (h : tok.type = .identifier)
    (ho : o.type = .lparen) :
    terms i (tok :: o :: rest) =
      pushEntry { kind := .call 0, tok := i } tok >>= fun _ => terms (i + 2) rest := by
  rcases terms_cons i tok (o :: rest) with
    ⟨hsemi, -⟩ | ⟨_, _, ⟨rfl, rfl⟩, -, -, heq⟩ | ⟨-, hname, -⟩
  · simp [h] at hsemi
  · exact heq
  · exact absurd ho (hname h o rfl)

theorem terms_shift (i : Nat) (h : tok.type ≠ .semicolon)
    (hname : tok.type = .identifier → EndsName rest) :
    terms i (tok :: rest) = shift i tok >>= fun _ => terms (i + 1) rest := by
  rcases terms_cons i tok rest with ⟨hsemi, -⟩ | ⟨o, _, rfl, hid, ho, -⟩ | ⟨-, -, heq⟩
  · exact absurd hsemi h
  · exact absurd ho (hname hid o rfl)
  · exact heq

/-- The number of tokens that the type of a declaration takes up. -/
def typeLength (ts : List Token) : Nat :=
  if isTyped ts then (ts.tail.takeWhile Token.isStar).length + 1 else 0

/-- The rest of a statement from the token after `var` on. -/
def declared (i : Nat) (ts : List Token) : Build Unit := do
  let n ← openDeclaration i ts
  terms (i + n) (ts.drop n)

theorem run_statement_cons (s : Session) (i : Nat) (tok : Token) (rest : List Token) :
    (statement i (tok :: rest)).run s =
      (if tok.type = .var then declared (i + 1) rest else terms i (tok :: rest)).run (begun s) :=
  rfl

end Build

namespace Link

open Build

variable {L : Link}

/-- A token of the second compilation: only its name may be another. -/
structure Reads (L : Link) (tok tok' : Token) : Prop where
  type : tok'.type = tok.type
  line : tok'.line = tok.line
  value : tok'.value = tok.value
  same : L.rename = id → tok' = tok

theorem reads_renamedBefore (rest : List Token) (tok : Token) :
    L.Reads tok (tok.renamedBefore L.rename rest) where
  type := by simp
  line := by simp
  value := by simp
  same hid := by rw [hid, Token.renamedBefore_id]

/-- Tokens whose code is allowed: a name may be called, and a literal loaded. -/
structure Admits (L : Link) (tok : Token) : Prop where
  callee : tok.type = .identifier → L.allowed (.call tok.name)
  literal : tok.type = .integer → tok.value ≤ 65535 → L.allowed (.movi tok.value)

/-- From the `i`-th token on the first source reads `ts`, and the second the same tokens renamed. -/
def Aligned (L : Link) : Nat → List Token → Prop
  | _, [] => True
  | i, tok :: rest =>
    (L.here i = tok ∧ L.there i = tok.renamedBefore L.rename rest ∧ L.Admits tok) ∧
      L.Aligned (i + 1) rest

theorem Aligned.drop {i : Nat} {ts : List Token} (h : L.Aligned i ts) (n : Nat) :
    L.Aligned (i + n) (ts.drop n) := by
  induction n generalizing i ts with
  | zero => exact h
  | succ n ih =>
    cases ts with
    | nil => trivial
    | cons tok rest =>
      have := ih h.2
      rwa [Nat.add_right_comm] at this

theorem there_natCast (i : Nat) :
    L.there i = ({ tokens := L.target } : Session).token ((i + L.shift : Nat) : Int) := by
  simp [there]

/-- Sources are aligned where the same tokens are left, up to their names and what follows. -/
theorem aligned_of_drop {i : Nat} {ts us us' : List Token} (hs : L.source.toList.drop i = ts ++ us)
    (ht : L.target.toList.drop (i + L.shift) = renameTokens L.rename ts ++ us')
    (had : ∀ tok ∈ ts, L.Admits tok) : L.Aligned i ts := by
  induction ts generalizing i with
  | nil => trivial
  | cons tok rest ih =>
    obtain ⟨htok, hrest⟩ := List.forall_mem_cons.1 had
    refine ⟨⟨?_, ?_, htok⟩, ih ?_ ?_ hrest⟩
    · exact token_of_drop (s := { tokens := L.source }) hs
    · rw [there_natCast]
      exact token_of_drop (s := { tokens := L.target }) ht
    · rw [← List.drop_drop, hs]
      rfl
    · rw [Nat.add_right_comm, ← List.drop_drop, ht]
      rfl

section

variable {d : Directive} {tok tok' : Token} {i : Nat}

theorem directive_natCast (kind : DirectiveKind) (i : Nat) (o : Operand) :
    L.directive ⟨kind, i, o⟩ = ⟨kind, (i + L.shift : Nat), o.renamed L.rename⟩ := by
  simp [directive]

theorem holds_default : L.Holds {} where
  literal := by
    rintro n ⟨rfl⟩
    exact L.plain _ rfl
  register := by simp

theorem fits_entry {kind : DirectiveKind} (h : (L.there i).line = (L.here i).line)
    (hd : kind ≠ .declaration) (hc : ∀ n, kind ≠ .call n) : L.Fits { kind, tok := i } where
  holds := holds_default
  line := h
  name hk := absurd hk hd
  callee n hk := absurd hk (hc n)

theorem sim_pushEntry (hd : L.Fits d) (ht : L.Reads tok tok') :
    L.Sim Eq (pushEntry d tok) (pushEntry (L.directive d) tok') := by
  unfold pushEntry
  refine Sim.get.bind fun s t hst => ?_
  refine Sim.ite (by rw [hst.expect]) (fun _ => ?_) fun _ => ?_
  · refine Sim.get.bind fun s t hst => ?_
    apply sim_setStack
    · rw [hst.stack, List.map_cons]
    · exact List.forall_mem_cons.2 ⟨hd, hst.fits⟩
  · exact Sim.reject ht.line fun hid => by rw [ht.same hid]

theorem sim_pushTerm (hd : L.Fits d) (ht : L.Reads tok tok') :
    L.Sim Eq (pushTerm d tok) (pushTerm (L.directive d) tok') := by
  unfold pushTerm
  exact (sim_pushEntry hd ht).bind fun _ _ _ => sim_setExpectOperand false

theorem sim_pushOperator {kind : DirectiveKind} (hd : L.Fits { kind, tok := i })
    (ht : L.Reads tok tok') :
    L.Sim Eq (pushOperator kind i tok) (pushOperator kind (i + L.shift) tok') := by
  unfold pushOperator
  refine Sim.get.bind fun s t hst => ?_
  refine Sim.ite (by rw [hst.expect]) (fun _ => ?_) fun _ => ?_
  · exact Sim.reject ht.line fun hid => by rw [ht.same hid]
  · refine (sim_reduce _).bind fun _ _ _ => Sim.get.bind fun s t hst => ?_
    refine (sim_setStack ?_ ?_).bind fun _ _ _ => sim_setExpectOperand true
    · rw [hst.stack, List.map_cons, directive_natCast]
      rfl
    · exact List.forall_mem_cons.2 ⟨hd, hst.fits⟩

theorem sim_useLiteral (hi : (L.there i).line = (L.here i).line) (ht : L.Reads tok tok')
    (hlit : tok.value ≤ 65535 → L.allowed (.movi tok.value)) :
    L.Sim Eq (useLiteral i tok) (useLiteral (i + L.shift) tok') := by
  unfold useLiteral
  rw [ht.value]
  refine Sim.ite Iff.rfl (fun _ => Sim.reject ht.line fun _ => rfl) fun hle => ?_
  have hfits : L.Fits ⟨.value, i, { type := .untyped, place := .immediate tok.value }⟩ := by
    refine ⟨⟨?_, by simp⟩, hi, by simp, by simp⟩
    rintro n ⟨rfl⟩
    exact hlit (Int.not_lt.1 hle)
  have := sim_pushTerm hfits ht
  rwa [directive_natCast] at this

theorem sim_useVariable (hi : (L.there i).line = (L.here i).line)
    (htok : tok.type = .identifier) :
    L.Sim Eq (useVariable i tok) (useVariable (i + L.shift) (tok.renamed L.rename)) := by
  have ht : L.Reads tok (tok.renamed L.rename) :=
    ⟨by simp, by simp, by simp, fun hid => by simp [hid]⟩
  unfold useVariable
  refine Sim.get.bind fun s t hst => ?_
  rw [hst.frame, Token.name_renamed htok, Frame.lookup_renamed _ L.injective]
  cases s.frame.lookup tok.name with
  | none => exact Sim.reject ht.line fun hid => by rw [hid]; rfl
  | some v =>
    have := sim_pushTerm (L := L) (d := ⟨.value, i, { type := v.type, place := .frame v.address }⟩)
      ⟨⟨by simp, by simp⟩, hi, by simp, by simp⟩ ht
    rwa [directive_natCast] at this

theorem sim_pushStar (hi : (L.there i).line = (L.here i).line) (ht : L.Reads tok tok') :
    L.Sim Eq (pushStar i tok) (pushStar (i + L.shift) tok') := by
  unfold pushStar
  refine Sim.get.bind fun s t hst => ?_
  refine Sim.ite (by rw [hst.expect]) (fun _ => ?_) fun _ => ?_
  · have hfits : L.Fits { kind := .deref, tok := i } := fits_entry hi nofun nofun
    have := sim_pushEntry hfits ht
    rwa [directive_natCast] at this
  · exact sim_pushOperator (fits_entry hi nofun nofun) ht

variable {arg marker : Directive} {below : List Directive} {args : Int}

theorem sim_passArgument (harg : L.Fits arg) (hm : L.Fits marker) (hk : marker.kind = .call args)
    (hbelow : ∀ d ∈ below, L.Fits d) :
    L.Sim Eq (passArgument arg marker args below)
      (passArgument (L.directive arg) (L.directive marker) args (below.map L.directive)) := by
  unfold passArgument
  refine (sim_requireScalar harg).bind fun _ _ _ => ?_
  refine (sim_spill harg.holds).bind fun _ _ _ => sim_setStack rfl ?_
  refine List.forall_mem_cons.2 ⟨⟨hm.holds, hm.line, nofun, ?_⟩, hbelow⟩
  intro n _
  exact hm.callee args hk

theorem sim_finishCall (hm : L.Fits marker) {m : Int} (hk : marker.kind = .call m)
    (hbelow : ∀ d ∈ below, L.Fits d) :
    L.Sim Eq (finishCall marker args below)
      (finishCall (L.directive marker) args (below.map L.directive)) := by
  obtain ⟨hname, hallowed⟩ := hm.callee m hk
  unfold finishCall
  refine (sim_tokenAt marker.tok).bind ?_
  rintro _ _ ⟨rfl, rfl⟩
  rw [hname]
  refine (sim_call hallowed args).bind fun _ _ _ => (sim_note _ _).bind fun _ _ _ => ?_
  refine (sim_setStack rfl ?_).bind fun _ _ _ => sim_setExpectOperand false
  exact List.forall_mem_cons.2 ⟨fits_result _ _ hm.line, hbelow⟩

theorem splitGroup_directive (stack : List Directive) :
    splitGroup (stack.map L.directive) = (splitGroup stack).map
      fun p => (p.1.map L.directive, L.directive p.2.1, p.2.2.map L.directive) :=
  splitTop_directive _ _ _

theorem fits_split {stack above : List Directive}
    (h : splitGroup stack = some (above, marker, below)) (hfits : ∀ d ∈ stack, L.Fits d) :
    (∀ d ∈ above, L.Fits d) ∧ L.Fits marker ∧ ∀ d ∈ below, L.Fits d := by
  rw [splitTop_eq h] at hfits
  obtain ⟨habove, hrest⟩ := List.forall_mem_append.1 hfits
  exact ⟨habove, List.forall_mem_cons.1 hrest⟩

theorem sim_closeGroup (ht : L.Reads tok tok') : L.Sim Eq (closeGroup tok) (closeGroup tok') := by
  have hreject (p : Problem) : L.Sim (Eq (α := Unit)) (reject tok.line p) (reject tok'.line p) :=
    Sim.reject ht.line fun _ => rfl
  unfold closeGroup
  refine Sim.get.bind fun s t hst => ?_
  refine Sim.ite (by rw [hst.expect]) (fun _ => ?_) fun _ => ?_
  · have hfits := hst.fits
    rw [hst.stack]
    cases hstack : s.stack with
    | nil => exact hreject _
    | cons marker below =>
      rw [hstack] at hfits
      obtain ⟨hm, hbelow⟩ := List.forall_mem_cons.1 hfits
      obtain ⟨kind, j, o⟩ := marker
      cases kind with
      | call args =>
        exact Sim.ite Iff.rfl (fun _ => hreject _) fun _ => sim_finishCall hm rfl hbelow
      | _ => exact hreject _
  · refine (sim_reduce 0).bind fun _ _ _ => Sim.get.bind fun s t hst => ?_
    rw [hst.stack, splitGroup_directive]
    cases hsplit : splitGroup s.stack with
    | none => exact hreject _
    | some p =>
      obtain ⟨above, marker, below⟩ := p
      obtain ⟨habove, hm, hbelow⟩ := fits_split hsplit hst.fits
      match above with
      | [] => exact hreject _
      | [arg] =>
        have harg := habove arg List.mem_cons_self
        obtain ⟨kind, j, o⟩ := marker
        cases kind with
        | call args =>
          refine (sim_passArgument harg hm rfl hbelow).bind fun _ _ _ => ?_
          exact sim_finishCall hm rfl hbelow
        | _ => exact sim_setStack rfl (List.forall_mem_cons.2 ⟨harg, hbelow⟩)
      | _ :: _ :: _ => exact hreject _

theorem sim_nextArgument (ht : L.Reads tok tok') :
    L.Sim Eq (nextArgument tok) (nextArgument tok') := by
  have hreject (p : Problem) : L.Sim (Eq (α := Unit)) (reject tok.line p) (reject tok'.line p) :=
    Sim.reject ht.line fun _ => rfl
  unfold nextArgument
  refine Sim.get.bind fun s t hst => ?_
  refine Sim.ite (by rw [hst.expect]) (fun _ => hreject _) fun _ => ?_
  refine (sim_reduce 0).bind fun _ _ _ => Sim.get.bind fun s t hst => ?_
  rw [hst.stack, splitGroup_directive]
  cases hsplit : splitGroup s.stack with
  | none => exact hreject _
  | some p =>
    obtain ⟨above, marker, below⟩ := p
    obtain ⟨habove, hm, hbelow⟩ := fits_split hsplit hst.fits
    obtain ⟨kind, j, o⟩ := marker
    cases kind with
    | call args =>
      match above with
      | [arg] =>
        refine (sim_passArgument (habove arg List.mem_cons_self) hm rfl hbelow).bind fun _ _ _ => ?_
        exact sim_setExpectOperand true
      | [] => exact hreject _
      | _ :: _ :: _ => exact hreject _
    | _ => exact hreject _

theorem sim_endedOn {line line' : Int} (hline : line' = line) {d d' : Directive}
    (hd : L.rename = id → d'.text = d.text) :
    L.Sim (Eq (α := Unit)) (reject line (.endedOn d)) (reject line' (.endedOn d')) := by
  have htext (d : Directive) : (Problem.endedOn d).text = "statement ended on " ++ d.text := by
    unfold Problem.text
    rfl
  exact Sim.rejectShown hline rfl rfl fun hid => by rw [htext, htext, hd hid]

theorem sim_settle (hd : L.Fits d) : L.Sim Eq (settle d) (settle (L.directive d)) := by
  obtain ⟨kind, i, o⟩ := d
  unfold settle
  refine (sim_tokenAt i).bind ?_
  rintro _ _ ⟨rfl, rfl⟩
  cases kind with
  | declaration =>
    refine Sim.ite (by simp [directive, Operand.renamed]) (fun _ => ?_) fun _ => ?_
    · refine Sim.reject hd.line fun hid => ?_
      rw [hd.name rfl, hid]
      rfl
    · refine (Sim.sound_eq (Ty.size_renamed _)).bind ?_
      rintro size _ rfl
      refine Sim.get.bind fun s t hst => ?_
      rw [hst.frame]
      exact (sim_zeros size).bind fun _ _ _ => sim_declare (hd.name rfl) hd.line
  -- sizes and kinds of types do not depend on names, so both take the same branch
  | value =>
    refine (Sim.sound_eq (Ty.isScalar_renamed _)).bind ?_
    rintro scalar _ rfl
    refine Sim.ite Iff.rfl (fun _ => ?_) fun _ => ?_
    · exact (sim_load hd.holds rfl).bind fun _ _ _ => Sim.pure rfl
    · refine (Sim.sound (Ty.info_renamed _)).bind ?_
      rintro b _ rfl
      refine Sim.ite (by simp [TypeInfo.renamed]) (fun _ => sim_requireScalar hd) fun _ => ?_
      exact Sim.ite Iff.rfl (fun _ => sim_pop rfl) fun _ => Sim.pure rfl
  | _ => exact sim_endedOn hd.line fun hid => text_directive hid _

theorem temporaries_renamed (f : Frame) : temporaries (f.renamed L.rename) = temporaries f := by
  unfold temporaries
  rw [Frame.liveWords_renamed]
  rfl

theorem sim_checkWords (ht : L.Reads tok tok') : L.Sim Eq (checkWords tok) (checkWords tok') := by
  unfold checkWords
  refine Sim.get.bind fun s t hst => ?_
  refine (Sim.sound_eq (by rw [hst.frame, temporaries_renamed])).bind ?_
  rintro words _ rfl
  exact Sim.ite Iff.rfl (fun _ => Sim.pure rfl) fun _ => Sim.reject ht.line fun _ => rfl

theorem sim_settleEntries {stack : List Directive} (ht : L.Reads tok tok')
    (hfits : ∀ d ∈ stack, L.Fits d) :
    L.Sim Eq (settleEntries tok stack) (settleEntries tok' (stack.map L.directive)) := by
  have hcheck := sim_checkWords ht
  rcases stack with _ | ⟨d, _ | ⟨e, rest⟩⟩
  · exact hcheck
  · refine (sim_setStack rfl (by simp)).bind fun _ _ _ => ?_
    exact (sim_settle (hfits d List.mem_cons_self)).bind fun _ _ _ => hcheck
  · refine (Sim.reject (R := Eq) ht.line ?_).bind fun _ _ _ => hcheck
    intro _
    rw [List.length_map]

theorem sim_settleStack (ht : L.Reads tok tok') :
    L.Sim Eq (settleStack tok) (settleStack tok') := by
  unfold settleStack
  refine Sim.get.bind fun s t hst => ?_
  rw [hst.stack]
  dsimp only
  rw [splitGroup_directive]
  cases hsplit : splitGroup s.stack with
  | none => exact sim_settleEntries ht hst.fits
  | some p =>
    obtain ⟨above, marker, below⟩ := p
    refine (sim_tokenAt marker.tok).bind ?_
    rintro _ _ ⟨rfl, rfl⟩
    refine (Sim.reject (R := Eq) (fits_split hsplit hst.fits).2.1.line fun _ => rfl).bind ?_
    exact fun _ _ _ => sim_settleEntries ht hst.fits

theorem sim_conclude (ht : L.Reads tok tok') : L.Sim Eq (conclude tok) (conclude tok') := by
  have hrest := (sim_reduce (L := L) 0).bind fun _ _ _ => sim_settleStack ht
  unfold conclude
  refine Sim.get.bind fun s t hst => ?_
  refine Sim.ite (by rw [hst.expect, hst.stack, List.isEmpty_map]) (fun _ => ?_) fun _ => hrest
  exact (Sim.reject (R := Eq) ht.line fun _ => rfl).bind fun _ _ _ => hrest

end

section

variable {i : Nat} {tok : Token} {rest ts : List Token}

theorem renamedBefore_of_endsName (h : EndsName rest) :
    tok.renamedBefore L.rename rest = tok.renamed L.rename := by
  unfold Token.renamedBefore
  rw [if_neg]
  cases rest with
  | nil => simp
  | cons next rest => simpa [EndsName] using h

theorem sim_shift (h : L.Aligned i (tok :: rest)) (hname : tok.type = .identifier → EndsName rest) :
    L.Sim Eq (Build.shift i tok) (Build.shift (i + L.shift) (tok.renamedBefore L.rename rest)) := by
  have ht : L.Reads tok (tok.renamedBefore L.rename rest) := reads_renamedBefore rest tok
  obtain ⟨⟨hhere, hthere, had⟩, -⟩ := h
  have hi : (L.there i).line = (L.here i).line := by rw [hhere, hthere, ht.line]
  have hentry {kind : DirectiveKind} (hd : kind ≠ .declaration) (hc : ∀ n, kind ≠ .call n) :
      L.Sim Eq (pushEntry { kind, tok := i } tok)
        (pushEntry { kind, tok := (i + L.shift : Nat) } (tok.renamedBefore L.rename rest)) := by
    have := sim_pushEntry (fits_entry hi hd hc) ht
    rwa [directive_natCast] at this
  unfold Build.shift
  rw [ht.type]
  cases htype : tok.type with
  | eof => exact Sim.reject ht.line fun _ => rfl
  | var => exact Sim.reject ht.line fun _ => rfl
  | integer => exact sim_useLiteral hi ht (had.literal htype)
  | identifier =>
    rw [renamedBefore_of_endsName (hname htype)]
    exact sim_useVariable hi htype
  | lparen => exact hentry nofun nofun
  | rparen => exact sim_closeGroup ht
  | comma => exact sim_nextArgument ht
  | assign => exact sim_pushOperator (fits_entry hi nofun nofun) ht
  | plus => exact sim_pushOperator (fits_entry hi nofun nofun) ht
  | minus => exact sim_pushOperator (fits_entry hi nofun nofun) ht
  | star => exact sim_pushStar hi ht
  | amp => exact hentry nofun nofun
  | _ => exact Sim.reject ht.line fun hid => by rw [ht.same hid]

/-- The second source ends at the same line as the first. -/
def SameEnd (L : Link) : Prop :=
  ({ tokens := L.target } : Session).endToken = ({ tokens := L.source } : Session).endToken

theorem Between.endToken {s t : Session} (h : L.Between s t) (he : L.SameEnd) :
    t.endToken = s.endToken := by
  unfold SameEnd Session.endToken at he
  unfold Session.endToken
  rwa [h.source, h.target]

theorem sim_terms (h : L.Aligned i ts) (hend : L.SameEnd ∨ ∃ tok ∈ ts, tok.type = .semicolon) :
    L.Sim Eq (terms i ts) (terms (i + L.shift) (renameTokens L.rename ts)) := by
  -- a call takes two tokens at once
  induction hn : ts.length using Nat.strong_induction_on generalizing i ts with
  | _ n ih =>
    subst hn
    cases ts with
    | nil =>
      have he : L.SameEnd := hend.resolve_right (by simp)
      unfold terms
      refine Sim.get.bind fun s t hst => ?_
      exact Sim.reject (by rw [hst.endToken he]) fun _ => rfl
    | cons tok rest =>
      have hreads : L.Reads tok (tok.renamedBefore L.rename rest) := reads_renamedBefore rest tok
      rcases terms_cons i tok rest with ⟨hsemi, heq⟩ | ⟨o, rest', rfl, hid, ho, heq⟩ |
        ⟨hsemi, hname, heq⟩
      · rw [heq, renameTokens, terms_semicolon _ _ (by rw [hreads.type, hsemi])]
        exact sim_conclude hreads
      · obtain ⟨⟨hhere, hthere, had⟩, ⟨-, hrest⟩⟩ := h
        have hsame : tok.renamedBefore L.rename (o :: rest') = tok := by
          simp [Token.renamedBefore, ho]
        rw [hsame] at hthere hreads
        have hfits : L.Fits { kind := .call 0, tok := i } := by
          refine ⟨holds_default, by rw [hhere, hthere], by simp, fun _ _ => ?_⟩
          rw [hhere, hthere]
          exact ⟨rfl, had.callee hid⟩
        rw [heq, renameTokens, renameTokens, hsame, terms_call _ _ hid (by simpa using ho),
          Nat.add_right_comm]
        have hpush := sim_pushEntry hfits hreads
        rw [directive_natCast] at hpush
        refine hpush.bind fun _ _ _ => ih _ (by simp) hrest ?_ rfl
        simpa [hid, ho] using hend
      · rw [heq, renameTokens, terms_shift _ (by rwa [hreads.type]), Nat.add_right_comm]
        · refine (sim_shift h hname).bind fun _ _ _ => ih _ (by simp) h.2 ?_ rfl
          simpa [hsemi] using hend
        · intro hid
          cases rest with
          | nil => simp [renameTokens, EndsName]
          | cons o rest => simpa [renameTokens, EndsName] using hname (by rwa [hreads.type] at hid)

theorem isTyped_renameTokens (ts : List Token) :
    isTyped (renameTokens L.rename ts) = isTyped ts := by
  cases ts with
  | nil => rfl
  | cons tok rest =>
    unfold isTyped
    simp only [renameTokens, Token.type_renamedBefore]
    cases rest <;> simp [renameTokens]

theorem typeLength_renameTokens (ts : List Token) :
    typeLength (renameTokens L.rename ts) = typeLength ts := by
  have hstars : ((renameTokens L.rename ts).tail.takeWhile Token.isStar).length =
      (ts.tail.takeWhile Token.isStar).length := by
    cases ts with
    | nil => rfl
    | cons tok rest => exact length_takeWhile_isStar_renameTokens rest
  rw [typeLength, typeLength, isTyped_renameTokens, hstars]

theorem endsName_of_isTyped (h : isTyped (tok :: rest)) (hid : tok.type = .identifier) :
    EndsName rest := by
  unfold isTyped at h
  simp only [hid] at h
  cases rest with
  | nil => simp at h
  | cons next rest =>
    simp only [Bool.or_eq_true, decide_eq_true_eq] at h
    rcases h with h | h <;> simp [EndsName, h]

theorem renamedBefore_of_isTyped (h : isTyped (tok :: rest)) :
    tok.renamedBefore L.rename rest = tok.renamed L.rename := by
  by_cases hid : tok.type = .identifier
  · exact renamedBefore_of_endsName (endsName_of_isTyped h hid)
  · simp [Token.renamedBefore, Token.renamed, hid]

theorem sim_declaredType (ts : List Token) :
    L.Sim (fun a b => b = (a.1.renamed L.rename, a.2) ∧ a.2 = typeLength ts) (declaredType ts)
      (declaredType (renameTokens L.rename ts)) := by
  have htyped := isTyped_renameTokens (L := L) ts
  cases ts with
  | nil => exact Sim.pure ⟨rfl, rfl⟩
  | cons tok rest =>
    unfold declaredType
    rw [renameTokens] at htyped ⊢
    refine Sim.ite (by rw [htyped]) (fun ht => ?_) fun ht => ?_
    · rw [renamedBefore_of_isTyped ht, length_takeWhile_isStar_renameTokens]
      refine Sim.get.bind fun s t hst => ?_
      rw [hst.types, Registry.resolve_renamed L.injective]
      cases s.types.resolve tok with
      | none => exact Sim.reject (by simp) fun hid => by simp [hid]
      | some base => exact Sim.pure ⟨rfl, by simp [typeLength, ht]⟩
    · exact Sim.pure ⟨rfl, by simp [typeLength, ht]⟩

theorem sim_nameDeclaration {type : Ty} {n : Nat} (h : L.Aligned i ts)
    (hend : L.SameEnd ∨ ts.drop n ≠ [])
    (hname : ∀ name rest, ts.drop n = name :: rest →
      name.renamedBefore L.rename rest = name.renamed L.rename) :
    L.Sim (fun a b => b = a ∧ a = n + 1 ∧ ∀ name ∈ (ts.drop n).head?, name.type = .identifier)
      (nameDeclaration i ts type n)
      (nameDeclaration (i + L.shift) (renameTokens L.rename ts) (type.renamed L.rename) n) := by
  unfold nameDeclaration
  rw [renameTokens_drop, isTyped_renameTokens]
  refine Sim.get.bind fun s t hst => ?_
  cases hdrop : ts.drop n with
  | nil =>
    -- the tokens run out, so the name asked for is the end of the source
    have he : L.SameEnd := hend.resolve_right (by simp [hdrop])
    rw [hst.endToken he]
    refine Sim.ite Iff.rfl (fun hid => by simp [Session.endToken] at hid) fun _ => ?_
    exact (Sim.reject (R := fun _ _ => False) rfl fun _ => rfl).bind fun _ _ hf => hf.elim
  | cons name rest =>
    have hat := h.drop n
    rw [hdrop] at hat
    obtain ⟨⟨hhere, hthere, -⟩, -⟩ := hat
    rw [hname name rest hdrop] at hthere
    simp only [renameTokens, List.headD_cons, hname name rest hdrop]
    have ht : L.Reads name (name.renamed L.rename) :=
      ⟨by simp, by simp, by simp, fun hid => by simp [hid]⟩
    refine Sim.ite (by rw [ht.type]) (fun hid => ?_) fun _ => ?_
    · have hfits : L.Fits ⟨.declaration, (i + n : Nat), { type }⟩ := by
        refine ⟨⟨?_, by simp⟩, by rw [hhere, hthere, ht.line], fun _ => ?_, by simp⟩
        · rintro m ⟨rfl⟩
          exact L.plain _ rfl
        · rw [hhere, hthere, Token.name_renamed hid]
      -- reached with a type and without one
      have hpush : L.Sim (fun a b => b = a ∧ a = n + 1 ∧
            ∀ first ∈ (name :: rest).head?, first.type = .identifier)
          (pushTerm ⟨.declaration, (i + n : Nat), { type }⟩ name >>= fun _ => pure (n + 1))
          (pushTerm (L.directive ⟨.declaration, (i + n : Nat), { type }⟩)
            (name.renamed L.rename) >>= fun _ => pure (n + 1)) :=
        (sim_pushTerm hfits ht).bind fun _ _ _ => Sim.pure ⟨rfl, rfl, by simpa using hid⟩
      rw [directive_natCast, Nat.add_right_comm] at hpush
      refine Sim.ite Iff.rfl (fun _ => ?_) fun _ => hpush
      refine (Sim.sound_eq (Ty.size_renamed type)).bind ?_
      rintro size _ rfl
      refine Sim.ite Iff.rfl (fun _ => ?_) fun _ => hpush
      refine (Sim.reject (R := fun _ _ => False) ht.line ?_).bind fun _ _ hf => hf.elim
      intro hid
      simp [hid]
    · refine (Sim.reject (R := fun _ _ => False) ht.line ?_).bind fun _ _ hf => hf.elim
      intro hid
      rw [ht.same hid]

/-- No semicolon stands in the type of a declaration. -/
theorem semicolon_of_typeLength (h : ∃ tok ∈ ts, tok.type = .semicolon) :
    ∃ tok ∈ ts.drop (typeLength ts), tok.type = .semicolon := by
  unfold typeLength
  split
  · rename_i htyped
    cases ts with
    | nil => simp at h
    | cons tok rest =>
      obtain ⟨semi, hmem, hsemi⟩ := h
      have hne : semi ≠ tok := by
        rintro rfl
        simp [isTyped, hsemi] at htyped
      have hrest := (List.mem_cons.1 hmem).resolve_left hne
      rw [List.drop_succ_cons, List.tail_cons, drop_stars]
      rw [← List.takeWhile_append_dropWhile (p := Token.isStar) (l := rest)] at hrest
      refine ⟨semi, (List.mem_append.1 hrest).resolve_left fun hstar => ?_, hsemi⟩
      have := List.mem_takeWhile_imp hstar
      simp [Token.isStar, hsemi] at this
  · exact h

theorem semicolon_after_name (h : ∃ tok ∈ ts, tok.type = .semicolon)
    (hid : ∀ name ∈ (ts.drop (typeLength ts)).head?, name.type = .identifier) :
    ∃ tok ∈ ts.drop (typeLength ts + 1), tok.type = .semicolon := by
  obtain ⟨semi, hmem, hsemi⟩ := semicolon_of_typeLength h
  rw [← List.drop_drop]
  cases hdrop : ts.drop (typeLength ts) with
  | nil => simp [hdrop] at hmem
  | cons name rest =>
    rw [hdrop] at hmem hid
    have hne : semi ≠ name := by
      rintro rfl
      simp [hsemi] at hid
    exact ⟨semi, (List.mem_cons.1 hmem).resolve_left hne, hsemi⟩

theorem sim_declared (h : L.Aligned i ts)
    (hend : L.SameEnd ∨ ∃ tok ∈ ts, tok.type = .semicolon)
    (hname : ∀ name rest, ts.drop (typeLength ts) = name :: rest →
      name.renamedBefore L.rename rest = name.renamed L.rename) :
    L.Sim Eq (declared i ts) (declared (i + L.shift) (renameTokens L.rename ts)) := by
  have hopen (i : Nat) (ts : List Token) : declared i ts = declaredType ts >>= fun p =>
      nameDeclaration i ts p.1 p.2 >>= fun n => terms (i + n) (ts.drop n) := by
    unfold declared
    rw [← bind_assoc]
    rfl
  rw [hopen, hopen]
  refine (sim_declaredType ts).bind ?_
  rintro ⟨type, n⟩ _ ⟨rfl, rfl⟩
  refine (sim_nameDeclaration h ?_ hname).bind ?_
  · refine hend.imp_right fun hsemi => ?_
    obtain ⟨semi, hmem, -⟩ := semicolon_of_typeLength hsemi
    exact List.ne_nil_of_mem hmem
  · rintro n _ ⟨rfl, rfl, hid⟩
    rw [renameTokens_drop, Nat.add_right_comm]
    exact sim_terms (h.drop _) (hend.imp_right fun hsemi => semicolon_after_name hsemi hid)

end

end Link

namespace Build

open Link

variable {s t : Session} {i n m : Nat} {ts : List Token} {type : Ty}

theorem length_declaredType (h : (declaredType ts).run s = .ok (type, n) t) :
    n = typeLength ts ∧ t = s := by
  have hrun := run_declaredType (s := s) ts
  cases ts with
  | nil =>
    rw [hrun] at h
    cases h
    exact ⟨rfl, rfl⟩
  | cons tok rest =>
    dsimp only at hrun
    unfold typeLength
    split at hrun
    · rename_i htyped
      split at hrun
      · exact absurd h (hrun _ _)
      · rw [hrun] at h
        cases h
        exact ⟨by rw [if_pos htyped, List.tail_cons], rfl⟩
    · rename_i htyped
      rw [hrun] at h
      cases h
      exact ⟨by rw [if_neg htyped], rfl⟩

theorem expect_nameDeclaration (h : (nameDeclaration i ts type n).run s = .ok m t) :
    m = n + 1 ∧ t.expectOperand = false := by
  have hpush {u : Session} {d : Directive} {name : Token}
      (h : (pushTerm d name >>= fun _ => pure (n + 1)).run u = .ok m t) :
      m = n + 1 ∧ t.expectOperand = false := by
    simp only [pushTerm, bind_assoc, run_bind_eq_ok, run_setExpectOperand, EStateM.run_pure,
      EStateM.Result.ok.injEq] at h
    obtain ⟨_, _, _, _, _, ⟨-, rfl⟩, rfl, rfl⟩ := h
    exact ⟨rfl, rfl⟩
  unfold nameDeclaration at h
  rw [EStateM.run_bind, EStateM.run_get] at h
  dsimp only at h
  split at h
  · split at h
    · rw [EStateM.run_bind] at h
      split at h
      · split at h
        · simp [EStateM.run_bind] at h
        · exact hpush h
      · cases h
    · exact hpush h
  · simp [EStateM.run_bind] at h

theorem fails_declared_call {name o : Token} {rest : List Token}
    (hdrop : ts.drop (typeLength ts) = name :: o :: rest) (ho : o.type = .lparen) :
    Fails ((declared i ts).run s) := by
  intro a t h
  obtain ⟨n, u, hopen, hterms⟩ := run_bind_eq_ok.1 h
  have hopen' : (declaredType ts >>= fun p => nameDeclaration i ts p.1 p.2).run s = .ok n u := hopen
  obtain ⟨⟨type, k⟩, v, htype, hname⟩ := run_bind_eq_ok.1 hopen'
  obtain ⟨rfl, rfl⟩ := length_declaredType htype
  obtain ⟨rfl, hexpect⟩ := expect_nameDeclaration hname
  rw [← List.drop_drop, hdrop] at hterms
  rw [List.drop_succ_cons, List.drop_zero, terms_shift _ (by simp [ho]) (by simp [ho]), shift,
    ho] at hterms
  obtain ⟨_, w, hpush, -⟩ := run_bind_eq_ok.1 hterms
  simp [pushEntry, EStateM.run_bind, hexpect] at hpush

end Build

end OnePass

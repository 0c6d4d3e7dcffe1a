import Mathlib
import OnePass.Proofs.Spelling

namespace OnePass

namespace Assembly

/-- What a lexeme is, apart from its place. -/
abbrev Piece := LexemeKind × String

theorem exists_of_map_eq_ok {α β ε : Type} {f : α → β} {x : Except ε α} {b : β}
    (h : x.map f = .ok b) : ∃ a, x = .ok a ∧ f a = b := by
  cases x with
  | error e => contradiction
  | ok a => exact ⟨a, rfl, Except.ok.inj h⟩

theorem exists_of_bind_eq_ok {α β ε : Type} {f : α → Except ε β} {x : Except ε α} {b : β}
    (h : x >>= f = .ok b) : ∃ a, x = .ok a ∧ f a = .ok b := by
  cases x with
  | error e => contradiction
  | ok a => exact ⟨a, rfl, h⟩

/-- Pieces that are an operand. -/
inductive Operand : List Piece → Argument → Prop
  | immediate {s : String} {n : Int} (read : Text.readLiteral s = .ok n) :
    Operand [(.punct, "#"), (.int, s)] (.immediate n)
  | name (s : String) : Operand [(.ident, s)] (.name s)

inductive More : List Piece → List Argument → Prop
  | nil : More [] []
  | cons {p q : List Piece} {a : Argument} {as : List Argument} (first : Operand q a)
    (more : More p as) : More ((.punct, ",") :: (q ++ p)) (a :: as)

/-- Pieces that are instructions on line `n`. An identifier behind a mnemonic is its operand, so
only the last instruction can be without one. -/
inductive Reads (n : Nat) : List Piece → List Line → Prop
  | nil : Reads n [] []
  | lone (m : String) : Reads n [(.ident, m)] [⟨m, [], n⟩]
  | cons {p q rest : List Piece} {a : Argument} {as : List Argument} {ls : List Line} (m : String)
    (first : Operand q a) (more : More p as) (next : Reads n rest ls) :
    Reads n ((.ident, m) :: (q ++ (p ++ rest))) (⟨m, a :: as, n⟩ :: ls)

def Lexeme.ends (l : Lexeme) : Prop := l.kind = .eol ∨ l.kind = .eof

section

variable {e : Lexeme} {xs ts rest : List Lexeme} {a : Argument} {as : List Argument}

theorem Lexeme.ends.kind_ne {kind : LexemeKind} (h : e.ends) (heol : kind ≠ .eol)
    (heof : kind ≠ .eof) : e.kind ≠ kind := by
  rintro rfl
  exact h.elim heol heof

theorem Lexeme.ends.isPunct_eq (h : e.ends) (s : String) : isPunct e s = false := by
  have hkind : e.kind ≠ .punct := h.kind_ne (by decide) (by decide)
  simp [isPunct, hkind]

theorem Lexeme.ends.argument?_eq (h : e.ends) : argument? (e :: ts) = .ok none := by
  have hkind : e.kind ≠ .ident := h.kind_ne (by decide) (by decide)
  simp [argument?, h.isPunct_eq, hkind]

theorem Lexeme.piece_of_isPunct {l : Lexeme} {s : String} (h : isPunct l s) :
    l.piece = (.punct, s) := by
  simpa [isPunct, Lexeme.piece] using h

theorem Operand.argument?_eq (h : Operand (xs.map Lexeme.piece) a) :
    argument? (xs ++ ts) = .ok (some (a, ts)) := by
  generalize hp : xs.map Lexeme.piece = p at h
  cases h with
  | immediate hread =>
    obtain ⟨x, xs, rfl, hx, hp⟩ := List.map_eq_cons_iff.1 hp
    obtain ⟨y, rfl, hy⟩ := List.map_eq_singleton_iff.1 hp
    obtain ⟨hkind, htext⟩ := x.piece_eq hx
    obtain ⟨hkind', htext'⟩ := y.piece_eq hy
    simp [argument?, integer, isPunct, hkind, htext, hkind', htext', hread, Except.map]
  | name s =>
    obtain ⟨x, rfl, hx⟩ := List.map_eq_singleton_iff.1 hp
    obtain ⟨hkind, htext⟩ := x.piece_eq hx
    simp [argument?, isPunct, hkind, htext]

theorem integer_eq_ok {y : Lexeme} {n : Int} (h : integer (y :: xs) = .ok (n, rest)) :
    y.kind = .int ∧ Text.readLiteral y.text = .ok n ∧ rest = xs := by
  rw [integer] at h
  split at h
  · next hy =>
    cases hread : Text.readLiteral y.text <;> simp_all
  · simp [refuse] at h

theorem operand_of_argument? (he : e.ends)
    (h : argument? (xs ++ e :: ts) = .ok (some (a, rest))) :
    ∃ ys zs, xs = ys ++ zs ∧ rest = zs ++ e :: ts ∧ Operand (ys.map Lexeme.piece) a := by
  cases xs with
  | nil => simp [he.argument?_eq] at h
  | cons x xs =>
    rw [List.cons_append, argument?] at h
    split at h
    · next hx =>
      cases xs with
      | nil =>
        have hkind : e.kind ≠ .int := he.kind_ne (by decide) (by decide)
        simp [integer, hkind, refuse, Except.map] at h
      | cons y xs =>
        obtain ⟨⟨n, zs⟩, hint, hsome⟩ := exists_of_map_eq_ok h
        obtain ⟨rfl, rfl⟩ := Prod.mk.inj (Option.some.inj hsome)
        obtain ⟨hy, hread, rfl⟩ := integer_eq_ok hint
        refine ⟨[x, y], xs, rfl, rfl, ?_⟩
        have hpiece : y.piece = (.int, y.text) := by rw [Lexeme.piece, hy]
        simpa [Lexeme.piece_of_isPunct hx, hpiece] using Operand.immediate hread
    · split at h
      · next hx =>
        obtain ⟨rfl, rfl⟩ := Prod.mk.inj (Option.some.inj (Except.ok.inj h))
        refine ⟨[x], xs, rfl, rfl, ?_⟩
        have hpiece : x.piece = (.ident, x.text) := by rw [Lexeme.piece, hx]
        simpa [hpiece] using Operand.name x.text
      · simp at h

theorem More.moreArguments_eq (h : More (xs.map Lexeme.piece) as)
    (hts : ∀ l ∈ ts.head?, isPunct l "," = false) : moreArguments (xs ++ ts) = .ok (as, ts) := by
  generalize hp : xs.map Lexeme.piece = p at h
  induction h generalizing xs with
  | nil =>
    obtain rfl := List.map_eq_nil_iff.1 hp
    rw [List.nil_append]
    cases ts with
    | nil => simp [moreArguments]
    | cons l ts => simp [moreArguments, hts l rfl]
  | @cons _ _ a as first _ ih =>
    obtain ⟨x, xs, rfl, hx, hp⟩ := List.map_eq_cons_iff.1 hp
    obtain ⟨ys, zs, rfl, rfl, hzs⟩ := List.map_eq_append_iff.1 hp
    obtain ⟨hkind, htext⟩ := x.piece_eq hx
    have hpunct : isPunct x "," := by simp [isPunct, hkind, htext]
    have hfirst : argument? (ys ++ (zs ++ ts)) = .ok (some (a, zs ++ ts)) := first.argument?_eq
    have hmore : moreArguments (zs ++ ts) = .ok (as, ts) := ih hzs
    rw [List.cons_append, List.append_assoc, moreArguments, if_pos hpunct]
    split <;> simp_all [Except.map]

theorem moreArguments_cases (h : moreArguments xs = .ok (as, rest)) :
    (as = [] ∧ rest = xs) ∨ ∃ x ys a zs as', xs = x :: ys ∧ isPunct x "," ∧
      argument? ys = .ok (some (a, zs)) ∧ moreArguments zs = .ok (as', rest) ∧ as = a :: as' := by
  rw [moreArguments.eq_def] at h
  split at h
  · next x ys =>
    split at h
    · next hx =>
      split at h
      · contradiction
      · cases ys <;> simp [refuse] at h
      · next a zs ha =>
        obtain ⟨⟨as', us⟩, hmore, hall⟩ := exists_of_map_eq_ok h
        obtain ⟨rfl, rfl⟩ := Prod.mk.inj hall
        exact .inr ⟨x, ys, a, zs, as', rfl, hx, ha, hmore, rfl⟩
    · simp_all
  · simp_all

theorem more_of_moreArguments (he : e.ends)
    (h : moreArguments (xs ++ e :: ts) = .ok (as, rest)) :
    ∃ ys zs, xs = ys ++ zs ∧ rest = zs ++ e :: ts ∧ More (ys.map Lexeme.piece) as := by
  induction as generalizing xs with
  | nil =>
    rcases moreArguments_cases h with ⟨-, hrest⟩ | ⟨x, ys, a, zs, as', -, -, -, -, has⟩
    · exact ⟨[], xs, rfl, hrest, .nil⟩
    · contradiction
  | cons a as ih =>
    rcases moreArguments_cases h with ⟨has, -⟩ | ⟨x, us, a', vs, as', hxs, hx, ha, hmore, has⟩
    · contradiction
    · obtain ⟨rfl, rfl⟩ := List.cons.inj has
      -- the comma is in this row: what ends the row is none
      cases xs with
      | nil =>
        obtain ⟨rfl, -⟩ := List.cons.inj hxs
        simp [he.isPunct_eq] at hx
      | cons y xs =>
        obtain ⟨rfl, rfl⟩ := List.cons.inj hxs
        obtain ⟨ys, zs, rfl, rfl, hfirst⟩ := operand_of_argument? he ha
        obtain ⟨ys', zs', rfl, rfl, hrest⟩ := ih hmore
        refine ⟨y :: (ys ++ ys'), zs', by simp, rfl, ?_⟩
        rw [List.map_cons, List.map_append, Lexeme.piece_of_isPunct hx]
        exact .cons hfirst hrest

theorem lines_cases {x : Lexeme} {ls : List Line} (hx : ¬x.ends) (h : lines (x :: xs) = .ok ls) :
    x.kind = .ident ∧ ∃ as rest more, arguments xs = .ok (as, rest) ∧ lines rest = .ok more ∧
      ls = ⟨x.text, as, x.line⟩ :: more := by
  rw [lines] at h
  split at h
  · next hkind => exact absurd (.inr hkind) hx
  · next hkind => exact absurd (.inl hkind) hx
  · next hkind =>
    split at h
    · contradiction
    · next as rest hargs =>
      obtain ⟨more, hmore, rfl⟩ := exists_of_map_eq_ok h
      exact ⟨hkind, as, rest, more, hargs, hmore, rfl⟩
  · contradiction

theorem arguments_cases (h : arguments xs = .ok (as, rest)) :
    (argument? xs = .ok none ∧ as = [] ∧ rest = xs) ∨
      ∃ a zs as', argument? xs = .ok (some (a, zs)) ∧ moreArguments zs = .ok (as', rest) ∧
        as = a :: as' := by
  rw [arguments] at h
  split at h
  · contradiction
  · simp_all
  · next a zs ha =>
    obtain ⟨⟨as', us⟩, hmore, hall⟩ := exists_of_map_eq_ok h
    obtain ⟨rfl, rfl⟩ := Prod.mk.inj hall
    exact .inr ⟨a, zs, as', ha, hmore, rfl⟩

/-- What is read off lexemes up to the end of their row are the instructions of the row. -/
theorem reads_of_lines {n : Nat} {ls : List Line} (he : e.ends) (hxs : ∀ x ∈ xs, ¬x.ends)
    (hline : ∀ x ∈ xs, x.line = n) (h : lines (xs ++ e :: ts) = .ok ls) :
    ∃ here more, Reads n (xs.map Lexeme.piece) here ∧ lines (e :: ts) = .ok more ∧
      ls = here ++ more := by
  -- every instruction takes its lexemes off the front of the row
  induction hlen : xs.length using Nat.strong_induction_on generalizing xs ls with
  | _ len ih =>
    cases xs with
    | nil => exact ⟨[], ls, .nil, h, rfl⟩
    | cons x xs =>
      rw [List.forall_mem_cons] at hxs hline
      obtain ⟨hkind, as, rest, more, hargs, hmore, rfl⟩ := lines_cases hxs.1 h
      have hpiece : x.piece = (.ident, x.text) := by rw [Lexeme.piece, hkind]
      rw [hline.1]
      rcases arguments_cases hargs with ⟨hnone, rfl, rfl⟩ | ⟨a, us, as, ha, has, rfl⟩
      · cases xs with
        | nil =>
          refine ⟨[⟨x.text, [], n⟩], more, ?_, hmore, rfl⟩
          simpa [hpiece] using Reads.lone (n := n) x.text
        | cons y xs =>
          -- an instruction could follow only with an identifier, which would be an operand
          have hy := (lines_cases (hxs.2 y (by simp)) hmore).1
          simp [argument?, isPunct, hy] at hnone
      · obtain ⟨ys, zs, rfl, rfl, hfirst⟩ := operand_of_argument? he ha
        obtain ⟨ys', zs', rfl, rfl, hothers⟩ := more_of_moreArguments he has
        obtain ⟨here, more, hreads, hend, rfl⟩ :=
          ih zs'.length (by subst hlen; simp; omega) (fun y hy => hxs.2 y (by simp [hy]))
            (fun y hy => hline.2 y (by simp [hy])) hmore rfl
        refine ⟨⟨x.text, a :: as, n⟩ :: here, more, ?_, hend, rfl⟩
        rw [List.map_cons, List.map_append, List.map_append, hpiece]
        exact .cons x.text hfirst hothers hreads

theorem lines_ident {x : Lexeme} (hx : x.kind = .ident) (h : arguments xs = .ok (as, rest)) :
    lines (x :: xs) = (lines rest).map (⟨x.text, as, x.line⟩ :: ·) := by
  rw [lines, hx]
  dsimp only
  split <;> simp_all

theorem Reads.head_ident {n : Nat} {p : List Piece} {ls : List Line} (h : Reads n p ls) :
    ∀ q ∈ p.head?, q.1 = .ident := by
  cases h <;> simp

/-- The instructions of a row are read off its lexemes, wherever it stands. -/
theorem Reads.lines_eq {n : Nat} {ls : List Line} (h : Reads n (xs.map Lexeme.piece) ls)
    (hline : ∀ x ∈ xs, x.line = n) (he : e.ends) :
    lines (xs ++ e :: ts) = (lines (e :: ts)).map (ls ++ ·) := by
  generalize hp : xs.map Lexeme.piece = p at h
  induction h generalizing xs with
  | nil =>
    obtain rfl := List.map_eq_nil_iff.1 hp
    rw [List.nil_append]
    cases lines (e :: ts) <;> rfl
  | lone m =>
    obtain ⟨x, rfl, hx⟩ := List.map_eq_singleton_iff.1 hp
    obtain ⟨hkind, rfl⟩ := x.piece_eq hx
    have hargs : arguments (e :: ts) = .ok ([], e :: ts) := by
      rw [arguments, he.argument?_eq]
    rw [List.singleton_append, lines_ident hkind hargs, hline x (by simp)]
    rfl
  | @cons _ _ _ a as ls m first more next ih =>
    obtain ⟨x, xs, rfl, hx, hxs⟩ := List.map_eq_cons_iff.1 hp
    obtain ⟨ys, vs, rfl, rfl, hvs⟩ := List.map_eq_append_iff.1 hxs
    obtain ⟨zs, us, rfl, rfl, rfl⟩ := List.map_eq_append_iff.1 hvs
    obtain ⟨hkind, rfl⟩ := x.piece_eq hx
    rw [List.forall_mem_cons] at hline
    -- the operands end here: the next instruction starts with an identifier
    have hcomma : ∀ l ∈ (us ++ e :: ts).head?, isPunct l "," = false := by
      intro l hl
      cases us with
      | nil =>
        obtain rfl : e = l := Option.some.inj hl
        exact he.isPunct_eq ","
      | cons u us =>
        obtain rfl : u = l := Option.some.inj hl
        have hident : u.kind = .ident := next.head_ident u.piece rfl
        simp [isPunct, hident]
    have hargs : arguments (ys ++ (zs ++ (us ++ e :: ts))) = .ok (a :: as, us ++ e :: ts) := by
      rw [arguments, first.argument?_eq]
      dsimp only
      rw [more.moreArguments_eq hcomma]
      rfl
    have hrest : lines (us ++ e :: ts) = (lines (e :: ts)).map (ls ++ ·) :=
      ih (fun y hy => hline.2 y (by simp [hy])) rfl
    rw [List.cons_append, List.append_assoc, List.append_assoc, lines_ident hkind hargs, hrest,
      hline.1]
    cases lines (e :: ts) <;> rfl

end

/-- Characters that are one piece. -/
inductive Shape : LexemeKind → List Char → Prop
  | ident {c : Char} {cs : List Char} (start : isIdentStart c) (more : ∀ d ∈ cs, isIdent d) :
    Shape .ident (c :: cs)
  | digits {c : Char} {cs : List Char} (start : isDigit c) (more : ∀ d ∈ cs, isDigit d) :
    Shape .int (c :: cs)
  | negative {cs : List Char} (some : cs ≠ []) (digits : ∀ d ∈ cs, isDigit d) :
    Shape .int ('-' :: cs)
  | punct {c : Char} (mark : c = '#' ∨ c = ',') : Shape .punct [c]

/-- Characters with which a piece would go on. -/
def goesOn : LexemeKind → Char → Bool
  | .ident => isIdent
  | .int => isDigit
  | _ => fun _ => false

/-- Pieces with blanks before, between and after them. -/
inductive Laid : List Piece → List Char → Prop
  | nil : Laid [] []
  | blank {b : Char} {p : List Piece} {cs : List Char} (hb : isBlank b) (next : Laid p cs) :
    Laid p (b :: cs)
  | piece {kind : LexemeKind} {p : List Piece} {cs ds : List Char} (shape : Shape kind cs)
    (apart : ∀ d ∈ ds.head?, goesOn kind d = false) (next : Laid p ds) :
    Laid ((kind, String.ofList cs) :: p) (cs ++ ds)

/-- Pieces with blanks, and a comment at the end or none. -/
inductive Row : List Piece → List Char → Prop
  | plain {p : List Piece} {cs : List Char} (code : Laid p cs) : Row p cs
  | comment {p : List Piece} {cs text : List Char} (code : Laid p cs) (inside : '\n' ∉ text) :
    Row p (cs ++ ';' :: text)

/-- A row with another one below it may end with a carriage return. -/
inductive Ended : List Piece → List Char → Prop
  | row {p : List Piece} {r : List Char} (row : Row p r) : Ended p r
  | returned {p : List Piece} {cs : List Char} (code : Laid p cs) : Ended p (cs ++ ['\r'])

section

variable {kind : LexemeKind} {c : Char} {cs ds r rest : List Char} {p : List Piece}

theorem isIdent_of_goesOn (h : goesOn kind c) : isIdent c := by
  cases kind <;> simp_all [goesOn, isIdent]

theorem first?_blank (hc : isBlank c) :
    first? c rest = some (.blank, (rest.takeWhile isBlank).length) := by
  simp only [isBlank, Bool.or_eq_true, decide_eq_true_eq] at hc
  rcases hc with rfl | rfl <;> rfl

theorem lexemes_blanks (hc : isBlank c) (line column : Nat) :
    lexemes line column (c :: rest) =
      lexemes line (column + (rest.takeWhile isBlank).length + 1) (rest.dropWhile isBlank) := by
  have hdrop : rest.drop (rest.takeWhile isBlank).length = rest.dropWhile isBlank := by
    nth_rewrite 2 [← List.takeWhile_append_dropWhile (p := isBlank) (l := rest)]
    rw [List.drop_left]
  rw [lexemes, first?_blank hc]
  simp [hdrop]

theorem lexemes_blank (hc : isBlank c) (line column : Nat) :
    lexemes line column (c :: rest) = lexemes line (column + 1) rest := by
  rw [lexemes_blanks hc]
  cases rest with
  | nil => rfl
  | cons d rest =>
    by_cases hd : isBlank d
    · rw [lexemes_blanks hd, List.takeWhile_cons_of_pos hd, List.dropWhile_cons_of_pos hd,
        List.length_cons]
      congr 1
      omega
    · rw [List.takeWhile_cons_of_neg hd, List.dropWhile_cons_of_neg hd]
      rfl

theorem cuts_blank (hc : isBlank c) : Cuts [c] [] rest := by
  intro line column
  refine ⟨[], column + 1, rfl, by simp, ?_⟩
  rw [List.singleton_append, lexemes_blank hc]
  cases lexemes line (column + 1) rest <;> rfl

theorem Shape.cuts (h : Shape kind cs) (hrest : ∀ d ∈ rest.head?, goesOn kind d = false) :
    Cuts cs [(kind, String.ofList cs)] rest := by
  cases h with
  | ident start more => exact cuts_ident start more hrest
  | digits start more => exact cuts_digits start more hrest
  | negative some digits => exact cuts_negative some digits hrest
  | punct mark => exact cuts_punct mark

theorem goesOn_append (hds : ∀ d ∈ ds.head?, goesOn kind d = false)
    (hrest : ∀ d ∈ rest.head?, isIdent d = false) :
    ∀ d ∈ (ds ++ rest).head?, goesOn kind d = false := by
  intro d hd
  cases ds with
  | nil =>
    by_contra hon
    have hident := isIdent_of_goesOn (Bool.eq_true_of_not_eq_false hon)
    rw [hrest d hd] at hident
    contradiction
  | cons _ _ => exact hds d hd

/-- Characters are cut into the pieces that are laid out in them. -/
theorem Laid.cuts (h : Laid p cs) (rest : List Char)
    (hrest : ∀ d ∈ rest.head?, isIdent d = false) : Cuts cs p rest := by
  induction h with
  | nil => exact Cuts.nil
  | blank hb _ ih => exact (cuts_blank hb).append ih
  | piece shape apart _ ih => exact (shape.cuts (goesOn_append apart hrest)).append ih

theorem head?_dropWhile_eq {f : Char → Bool} (hc : c ∈ (cs.dropWhile f).head?) : f c = false := by
  have hhead := List.head?_dropWhile_not f cs
  rwa [hc] at hhead

theorem exists_run (f : Char → Bool) (cs : List Char) :
    ∃ ds es, cs = ds ++ es ∧ (∀ d ∈ ds, f d) ∧ ∀ d ∈ es.head?, f d = false :=
  ⟨cs.takeWhile f, cs.dropWhile f, List.takeWhile_append_dropWhile.symm,
    fun _ => List.mem_takeWhile_imp, fun _ => head?_dropWhile_eq⟩

theorem shape_of_first? {n : Nat} (hc : c ≠ ';' ∧ c ≠ '\n' ∧ c ≠ '\r') (hblank : ¬isBlank c)
    (hrest : ∀ d ∈ rest.head?, isIdent d = false) (h : first? c (cs ++ rest) = some (kind, n)) :
    ∃ ds es, cs = ds ++ es ∧ Shape kind (c :: ds) ∧ ∀ d ∈ es.head?, goesOn kind d = false := by
  rw [first?, if_neg hc.1, if_neg hc.2.1, if_neg fun h => hc.2.2 h.1, if_neg hblank] at h
  obtain ⟨ds, es, hcs, hds, hes⟩ := exists_run isDigit cs
  split_ifs at h with hident hdigit hminus hpunct
  · obtain ⟨rfl, -⟩ := Prod.mk.inj (Option.some.inj h)
    obtain ⟨ds, es, hcs, hds, hes⟩ := exists_run isIdent cs
    exact ⟨ds, es, hcs, .ident hident hds, hes⟩
  · obtain ⟨rfl, -⟩ := Prod.mk.inj (Option.some.inj h)
    exact ⟨ds, es, hcs, .digits hdigit hds, hes⟩
  · obtain ⟨rfl, -⟩ := Prod.mk.inj (Option.some.inj h)
    obtain ⟨rfl, hlen⟩ := hminus
    refine ⟨ds, es, hcs, .negative ?_ hds, hes⟩
    rintro rfl
    have hends : ∀ d ∈ (es ++ rest).head?, goesOn .int d = false := goesOn_append hes hrest
    have hnone : ([] ++ (es ++ rest)).takeWhile isDigit = [] := takeWhile_append_eq (by simp) hends
    rw [hcs, List.append_assoc, hnone] at hlen
    contradiction
  · obtain ⟨rfl, -⟩ := Prod.mk.inj (Option.some.inj h)
    exact ⟨[], cs, rfl, .punct hpunct, fun _ _ => rfl⟩

/-- Characters that are cut up within a row are laid out. -/
theorem laid_of_lexemes {line column : Nat} {ts : List Lexeme}
    (hcs : ∀ c ∈ cs, c ≠ ';' ∧ c ≠ '\n' ∧ c ≠ '\r') (hrest : ∀ d ∈ rest.head?, isIdent d = false)
    (h : lexemes line column (cs ++ rest) = .ok ts) : ∃ p, Laid p cs := by
  -- on the number of characters, since a piece takes several at once
  induction hlen : cs.length using Nat.strong_induction_on generalizing cs column ts with
  | _ len ih =>
    cases cs with
    | nil => exact ⟨[], .nil⟩
    | cons c cs =>
      have hmore : ∀ d ∈ cs, d ≠ ';' ∧ d ≠ '\n' ∧ d ≠ '\r' := fun d hd => hcs d (by simp [hd])
      by_cases hblank : isBlank c
      · rw [List.cons_append, lexemes_blank hblank] at h
        obtain ⟨p, hp⟩ := ih cs.length (by simp [← hlen]) hmore h rfl
        exact ⟨p, .blank hblank hp⟩
      · cases hfirst : first? c (cs ++ rest) with
        | none =>
          rw [List.cons_append, lexemes, hfirst] at h
          contradiction
        | some found =>
          obtain ⟨ds, es, rfl, hshape, hes⟩ :=
            shape_of_first? (hcs c (by simp)) hblank hrest hfirst
          -- the piece is cut off, so the rest of the row is cut up as well
          obtain ⟨xs, column', -, -, hcut⟩ :=
            hshape.cuts (goesOn_append hes hrest) line column
          rw [List.cons_append, List.append_assoc, ← List.cons_append, hcut] at h
          obtain ⟨us, hus, -⟩ := exists_of_map_eq_ok h
          obtain ⟨p, hp⟩ :=
            ih es.length (by simp [← hlen]) (fun d hd => hmore d (by simp [hd])) hus rfl
          exact ⟨_, .piece hshape hes hp⟩

theorem Laid.kind_ne (h : Laid p cs) : ∀ q ∈ p, q.1 ≠ .eol ∧ q.1 ≠ .eof := by
  induction h with
  | nil => simp
  | blank _ _ ih => exact ih
  | piece shape _ _ ih =>
    rw [List.forall_mem_cons]
    exact ⟨by cases shape <;> simp, ih⟩

theorem Shape.trimmed (h : Shape kind cs) : Trimmed cs := by
  have hident : ∀ c, isIdent c → solid c := fun c => solid_of_isIdent
  apply trimmed_of_solid
  cases h with
  | ident start more => simp_all [isIdent]
  | digits start more => simp_all [isIdent]
  | negative _ digits => simp_all [isIdent, solid, isSpace]
  | punct mark => rcases mark with rfl | rfl <;> simp [solid, isSpace]

theorem Laid.inside (h : Laid p cs) : ∀ c ∈ cs, c ≠ ';' ∧ c ≠ '\n' := by
  induction h with
  | nil => simp
  | blank hb _ ih =>
    rw [List.forall_mem_cons]
    refine ⟨?_, ih⟩
    constructor <;> rintro rfl <;> contradiction
  | piece shape _ _ ih =>
    intro c hc
    exact (List.mem_append.1 hc).elim (shape.trimmed.inside c) (ih c)

theorem isSpace_of_isBlank (h : isBlank c) : isSpace c := by
  simp only [isBlank, isSpace] at h ⊢
  grind

theorem Laid.dropWhile (h : Laid p cs) : Laid p (cs.dropWhile isSpace) := by
  induction h with
  | nil => exact .nil
  | blank hb _ ih => rwa [List.dropWhile_cons_of_pos (isSpace_of_isBlank hb)]
  | @piece _ _ cs ds shape apart next _ =>
    obtain ⟨c, hc, hsolid⟩ := shape.trimmed.first
    rw [dropWhile_isSpace ⟨c, List.mem_head?_append_of_mem_head? hc, hsolid⟩]
    exact .piece shape apart next

theorem rdropWhile_append (f : Char → Bool) (cs ds : List Char) :
    (cs ++ ds).rdropWhile f =
      if ds.rdropWhile f = [] then cs.rdropWhile f else cs ++ ds.rdropWhile f := by
  simp only [List.rdropWhile, List.reverse_append, List.dropWhile_append, List.isEmpty_iff,
    List.reverse_eq_nil_iff]
  split <;> simp

theorem mem_head?_rdropWhile {f : Char → Bool} (hc : c ∈ (cs.rdropWhile f).head?) :
    c ∈ cs.head? := by
  obtain ⟨es, hes⟩ := List.rdropWhile_prefix f cs
  rw [← hes]
  exact List.mem_head?_append_of_mem_head? hc

theorem rdropWhile_trimmed (h : Trimmed cs) : cs.rdropWhile isSpace = cs := by
  rw [List.rdropWhile, dropWhile_isSpace (by rw [List.head?_reverse]; exact h.last),
    List.reverse_reverse]

theorem Laid.rdropWhile (h : Laid p cs) : Laid p (cs.rdropWhile isSpace) := by
  induction h with
  | nil => exact .nil
  | @blank b _ cs hb _ ih =>
    have hnone : [b].rdropWhile isSpace = [] := by simp [List.rdropWhile, isSpace_of_isBlank hb]
    rw [← List.singleton_append, rdropWhile_append, hnone]
    split
    · next hnil => rwa [hnil] at ih
    · exact .blank hb ih
  | @piece kind p cs ds shape apart _ ih =>
    have hall : (cs ++ ds).rdropWhile isSpace = cs ++ ds.rdropWhile isSpace := by
      rw [rdropWhile_append, rdropWhile_trimmed shape.trimmed]
      split <;> simp_all
    rw [hall]
    exact .piece shape (fun d hd => apart d (mem_head?_rdropWhile hd)) ih

def trim (cs : List Char) : List Char := (cs.dropWhile isSpace).rdropWhile isSpace

theorem Laid.trim (h : Laid p cs) : Laid p (trim cs) := h.dropWhile.rdropWhile

theorem trim_trim (cs : List Char) : trim (trim cs) = trim cs := by
  have hfirst : (trim cs).dropWhile isSpace = trim cs := by
    cases h : trim cs with
    | nil => rfl
    | cons c ds =>
      have hc : c ∈ (cs.dropWhile isSpace).head? :=
        mem_head?_rdropWhile (by rw [← trim, h]; rfl)
      exact List.dropWhile_cons_of_neg (by simp [head?_dropWhile_eq hc])
  rw [trim, hfirst, trim, List.rdropWhile_idempotent]

theorem trim_returned (cs : List Char) : trim (cs ++ ['\r']) = trim cs := by
  rw [trim, trim, List.dropWhile_append]
  split
  · next h =>
    rw [List.isEmpty_iff.1 h]
    rfl
  · exact List.rdropWhile_concat_pos _ _ _ rfl

theorem bare_append (hcs : ∀ c ∈ cs, c ≠ ';') (hrest : ∀ d ∈ rest.head?, d = ';') :
    bare (cs ++ rest) = String.ofList (trim cs) := by
  have hcode : (cs ++ rest).takeWhile (· ≠ ';') = cs :=
    takeWhile_append_eq (fun c hc => decide_eq_true (hcs c hc)) (fun d hd => by simp [hrest d hd])
  rw [bare, hcode]
  rfl

theorem Laid.bare_append (h : Laid p cs) (hrest : ∀ d ∈ rest.head?, d = ';') :
    bare (cs ++ rest) = String.ofList (Assembly.trim cs) :=
  Assembly.bare_append (fun c hc => (h.inside c hc).1) hrest

theorem Laid.bare_returned (h : Laid p cs) :
    bare (cs ++ ['\r']) = String.ofList (Assembly.trim cs) := by
  have hcode : ∀ c ∈ cs ++ ['\r'], c ≠ ';' := by
    intro c hc
    rcases List.mem_append.1 hc with hc | hc
    · exact (h.inside c hc).1
    · simp_all
  rw [← List.append_nil (cs ++ _), Assembly.bare_append hcode (by simp), trim_returned]

theorem Ended.bare_laid (h : Ended p r) : Laid p (bare r).toList := by
  cases h with
  | row row =>
    cases row with
    | plain code =>
      rw [← List.append_nil r, code.bare_append (by simp), String.toList_ofList]
      exact code.trim
    | comment code _ =>
      rw [code.bare_append (by simp), String.toList_ofList]
      exact code.trim
  | returned code =>
    rw [code.bare_returned, String.toList_ofList]
    exact code.trim

theorem Ended.bare_bare (h : Ended p r) : bare (bare r).toList = bare r := by
  have htext : (bare r).toList = Assembly.trim (r.takeWhile (· ≠ ';')) := String.toList_ofList
  rw [← List.append_nil (bare r).toList, h.bare_laid.bare_append (by simp), htext, trim_trim,
    ← htext, String.ofList_toList]

theorem cuts_comment (hcs : '\n' ∉ cs) (hrest : ∀ d ∈ rest.head?, d = '\n') :
    Cuts (';' :: cs) [] rest := by
  have hrun : (cs ++ rest).takeWhile (· ≠ '\n') = cs := by
    apply takeWhile_append_eq
    · intro d hd
      exact decide_eq_true fun h => hcs (h ▸ hd)
    · intro d hd
      simp [hrest d hd]
  have hfirst : first? ';' (cs ++ rest) = some (.comment, cs.length) := by
    rw [first?, if_pos rfl, hrun]
  exact cuts_of_first? hfirst (by decide)

theorem Row.cuts (h : Row p r) (rest : List Char) (hrest : ∀ d ∈ rest.head?, d = '\n') :
    Cuts r p rest := by
  cases h with
  | plain code =>
    refine code.cuts rest fun d hd => ?_
    rw [hrest d hd]
    rfl
  | @comment _ text code inside =>
    have hcode := code.cuts (';' :: text ++ rest) (by simp [isIdent, isIdentStart, isDigit])
    have hall := hcode.append (cuts_comment inside hrest)
    rwa [List.append_nil] at hall

theorem lexemes_break (line column : Nat) : lexemes line column ('\n' :: rest) =
    (lexemes (line + 1) 1 rest).map (⟨.eol, "\n", line, column⟩ :: ·) := by
  rw [lexemes, first?]
  simp

theorem lexemes_returned (line column : Nat) : lexemes line column ('\r' :: '\n' :: rest) =
    (lexemes (line + 1) 1 rest).map (⟨.eol, "\r\n", line, column⟩ :: ·) := by
  rw [lexemes, first?]
  simp

/-- A row is cut into its pieces, and the next one is on a new line. -/
theorem Ended.lexemes_eq (h : Ended p r) (line column : Nat) (rest : List Char) :
    ∃ xs e, xs.map Lexeme.piece = p ∧ (∀ x ∈ xs, x.line = line) ∧ e.kind = .eol ∧
      lexemes line column (r ++ '\n' :: rest) = (lexemes (line + 1) 1 rest).map (xs ++ e :: ·) := by
  cases h with
  | row row =>
    obtain ⟨xs, column', hxs, hline, hcut⟩ := row.cuts ('\n' :: rest) (by simp) line column
    refine ⟨xs, ⟨.eol, "\n", line, column'⟩, hxs, hline, rfl, ?_⟩
    rw [hcut, lexemes_break]
    cases lexemes (line + 1) 1 rest <;> rfl
  | returned code =>
    obtain ⟨xs, column', hxs, hline, hcut⟩ := code.cuts ('\r' :: '\n' :: rest)
      (by simp [isIdent, isIdentStart, isDigit]) line column
    refine ⟨xs, ⟨.eol, "\r\n", line, column'⟩, hxs, hline, rfl, ?_⟩
    rw [List.append_assoc, List.singleton_append, hcut, lexemes_returned]
    cases lexemes (line + 1) 1 rest <;> rfl

theorem Row.lexemes_eq (h : Row p r) (line column : Nat) :
    ∃ xs e, xs.map Lexeme.piece = p ∧ (∀ x ∈ xs, x.line = line) ∧ e.kind = .eof ∧
      lexemes line column r = .ok (xs ++ [e]) := by
  obtain ⟨xs, column', hxs, hline, hcut⟩ := h.cuts [] (by simp) line column
  refine ⟨xs, ⟨.eof, "<EOF>", line, column'⟩, hxs, hline, rfl, ?_⟩
  rw [← List.append_nil r, hcut, lexemes]
  rfl

theorem head?_of_lexemes_returned {line column : Nat} {ts : List Lexeme}
    (h : lexemes line column ('\r' :: rest) = .ok ts) : rest.head? = some '\n' := by
  by_contra hrest
  rw [lexemes, first?] at h
  simp [hrest, isIdentStart, isDigit, isBlank] at h

/-- A row that is cut up is laid out. It ends with a carriage return only where another row is
below it. -/
theorem row_of_lexemes {line column : Nat} {ts : List Lexeme} (hr : '\n' ∉ r)
    (hrest : ∀ d ∈ rest.head?, d = '\n') (h : lexemes line column (r ++ rest) = .ok ts) :
    (∃ p, Row p r) ∨ rest ≠ [] ∧ ∃ p, Ended p r := by
  -- the code goes up to a comment, to a carriage return or to the end of the row
  obtain ⟨cs, tail, rfl, hcs, htail⟩ := exists_run (fun c => c ≠ ';' && c ≠ '\r') r
  have htail : ∀ d ∈ tail.head?, d = ';' ∨ d = '\r' := by
    simpa [or_iff_not_imp_left] using htail
  have hcs : ∀ c ∈ cs, c ≠ ';' ∧ c ≠ '\n' ∧ c ≠ '\r' := by
    intro c hc
    have hne : c ≠ '\n' := by
      rintro rfl
      exact hr (List.mem_append_left _ hc)
    simp_all
  have hident : ∀ d ∈ (tail ++ rest).head?, isIdent d = false := by
    intro d hd
    cases tail with
    | nil =>
      rw [hrest d hd]
      rfl
    | cons _ _ => rcases htail d hd with rfl | rfl <;> rfl
  rw [List.append_assoc] at h
  obtain ⟨p, hlaid⟩ := laid_of_lexemes hcs hident h
  cases tail with
  | nil =>
    rw [List.append_nil]
    exact .inl ⟨p, .plain hlaid⟩
  | cons d tail =>
    simp only [List.mem_append, List.mem_cons, not_or] at hr
    rcases htail d rfl with rfl | rfl
    · exact .inl ⟨p, .comment hlaid hr.2.2⟩
    · obtain ⟨xs, column', -, -, hcut⟩ := hlaid.cuts _ hident line column
      rw [hcut] at h
      obtain ⟨us, hus, -⟩ := exists_of_map_eq_ok h
      have hhead := head?_of_lexemes_returned hus
      cases tail with
      | nil =>
        refine .inr ⟨?_, p, .returned hlaid⟩
        rintro rfl
        simp at hhead
      | cons _ _ => simp_all

end

/-- A text that starts on line `n`, with the instructions of its rows. -/
inductive Parses : Nat → List Char → List Line → Prop
  | last {n : Nat} {p : List Piece} {r : List Char} {ls : List Line} (row : Row p r)
    (read : Reads n p ls) : Parses n r ls
  | next {n : Nat} {p : List Piece} {r cs : List Char} {ls more : List Line} (row : Ended p r)
    (read : Reads n p ls) (below : Parses (n + 1) cs more) : Parses n (r ++ '\n' :: cs) (ls ++ more)

section

variable {n : Nat} {cs r : List Char} {ls : List Line} {p : List Piece}

theorem Parses.spells (h : Parses n cs ls) : Spells n cs ls := by
  induction h with
  | @last n p r ls row read =>
    obtain ⟨xs, e, hxs, hline, he, hlex⟩ := row.lexemes_eq n 1
    have hend : lines [e] = .ok [] := by rw [lines, he]
    refine ⟨_, hlex, ?_⟩
    rw [Reads.lines_eq (hxs ▸ read) hline (.inr he), hend]
    simp [Except.map]
  | @next n p r cs ls more row read _ ih =>
    obtain ⟨ts, hts, hmore⟩ := ih
    obtain ⟨xs, e, hxs, hline, he, hlex⟩ := row.lexemes_eq n 1 cs
    have hend : lines (e :: ts) = .ok more := by rw [lines, he, hmore]
    refine ⟨xs ++ e :: ts, by rw [hlex, hts]; rfl, ?_⟩
    rw [Reads.lines_eq (hxs ▸ read) hline (.inl he), hend]
    rfl

theorem Ended.not_ends (h : Ended p r) {xs : List Lexeme} (hxs : xs.map Lexeme.piece = p) :
    ∀ x ∈ xs, ¬x.ends := by
  intro x hx hends
  have hkind := h.bare_laid.kind_ne x.piece (hxs ▸ List.mem_map_of_mem hx)
  exact hends.elim hkind.1 hkind.2

theorem Spells.parses (h : Spells n cs ls) : Parses n cs ls := by
  -- row by row, from the top
  induction hlen : cs.length using Nat.strong_induction_on generalizing n cs ls with
  | _ len ih =>
    obtain ⟨ts, hts, hls⟩ := h
    obtain ⟨r, rest, rfl, hr, hrest⟩ := exists_run (fun c => c ≠ '\n') cs
    have hr : '\n' ∉ r := fun hmem => by simpa using hr _ hmem
    have hrest : ∀ d ∈ rest.head?, d = '\n' := fun d hd => by simpa using hrest d hd
    cases rest with
    | nil =>
      rcases row_of_lexemes hr hrest hts with ⟨p, hrow⟩ | ⟨hne, -⟩
      · obtain ⟨xs, e, hxs, hline, he, hlex⟩ := hrow.lexemes_eq n 1
        rw [List.append_nil] at hts ⊢
        obtain rfl : xs ++ [e] = ts := Except.ok.inj (hlex.symm.trans hts)
        obtain ⟨here, more, hread, hmore, rfl⟩ :=
          reads_of_lines (.inr he) ((Ended.row hrow).not_ends hxs) hline hls
        rw [lines, he] at hmore
        obtain rfl : [] = more := Except.ok.inj hmore
        rw [List.append_nil]
        exact .last hrow (hxs ▸ hread)
      · exact absurd rfl hne
    | cons d cs =>
      obtain rfl : d = '\n' := hrest d rfl
      obtain ⟨p, hrow⟩ : ∃ p, Ended p r :=
        (row_of_lexemes hr hrest hts).elim (.imp fun _ => .row) And.right
      obtain ⟨xs, e, hxs, hline, he, hlex⟩ := hrow.lexemes_eq n 1 cs
      rw [hlex] at hts
      obtain ⟨us, hbelow, rfl⟩ := exists_of_map_eq_ok hts
      obtain ⟨here, more, hread, hmore, rfl⟩ :=
        reads_of_lines (.inl he) (hrow.not_ends hxs) hline hls
      rw [lines, he] at hmore
      have hcs : cs.length < len := by
        rw [← hlen, List.length_append, List.length_cons]
        omega
      exact .next hrow (hxs ▸ hread) (ih cs.length hcs ⟨us, hbelow, hmore⟩ rfl)

/-- A text spells instructions exactly if its rows hold them. -/
theorem spells_iff_parses : Spells n cs ls ↔ Parses n cs ls := ⟨Spells.parses, Parses.spells⟩

theorem Reads.line_eq (h : Reads n p ls) : ∀ l ∈ ls, l.line = n := by
  induction h with
  | nil => simp
  | lone => simp
  | cons _ _ _ _ ih => exact List.forall_mem_cons.2 ⟨rfl, ih⟩

theorem Parses.le_line (h : Parses n cs ls) : ∀ l ∈ ls, n ≤ l.line := by
  induction h with
  | last _ read => exact fun l hl => (read.line_eq l hl).ge
  | next _ read _ ih =>
    intro l hl
    rcases List.mem_append.1 hl with hl | hl
    · exact (read.line_eq l hl).ge
    · exact Nat.le_of_succ_le (ih l hl)

end

end Assembly

end OnePass

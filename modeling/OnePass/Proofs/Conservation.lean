import Mathlib
import OnePass.Proofs.Breakdown

namespace OnePass

namespace Munch

theorem length_cut_le (limit line : Nat) (b : UInt8) (bs : List UInt8) :
    (cut limit line b bs).1.length ≤ (b :: bs).length := by
  unfold cut
  split_ifs
  · exact Nat.succ_le_succ (List.takeWhile_prefix _).length_le
  · exact Nat.succ_le_succ (List.takeWhile_prefix _).length_le
  · exact Nat.succ_le_succ (Nat.zero_le _)

/-- Tokens that are settled are the first ones, whatever comes next. -/
theorem lexOpen_prefix (limit : Nat) (how : Lexer.Breakdown) (before rest c : List UInt8) :
    (lexOpen limit how before rest).1 <+: (lex limit before (rest ++ c)).1 := by
  fun_induction lexOpen limit how before rest with
  | case1 => exact List.nil_prefix
  | case2 before b bs hb ih =>
    rw [List.cons_append, lex, if_pos hb]
    exact ih
  | case3 => exact List.nil_prefix
  | case4 before b bs hb piece tok hok more ih =>
    have hcut := cut_append_of_cutOpen (Prod.ext rfl hok) c
    have hlen : piece.1.length ≤ (b :: bs).length := by
      rw [show piece.1 = (cut limit (lineAfter before) b bs).1 from cutOpen_fst ..]
      exact length_cut_le limit (lineAfter before) b bs
    rw [List.cons_append, lex_cut limit before _ (by simpa using hb), hcut]
    dsimp only
    rw [← List.cons_append, List.drop_append_of_le_length hlen, List.cons_prefix_cons]
    exact ⟨rfl, ih⟩

theorem kind_number {line : Nat} {digits : List UInt8} {e : Diagnostic}
    (h : number line digits = .error e) : e.problem.kind = .tokenize := by
  unfold number at h
  split at h
  · obtain rfl := Except.error.inj h
    rfl
  · cases h

theorem kind_word {line : Nat} {bytes : List UInt8} {e : Diagnostic}
    (h : word line bytes = .error e) : e.problem.kind = .tokenize := by
  unfold word at h
  split at h <;> cases h

theorem kind_runOpen {limit : Nat} {how : Lexer.Breakdown} {line : Nat} {p : UInt8 → Bool}
    {b : UInt8} {bs : List UInt8} {f : List UInt8 → Except Diagnostic Token} {e : Diagnostic}
    (hf : ∀ run, f run = .error e → e.problem.kind = .tokenize)
    (h : (runOpen limit how line p b bs).bind f = .error e) : e.problem.kind = .tokenize := by
  unfold runOpen at h
  dsimp only at h
  split_ifs at h
  · obtain rfl := Except.error.inj h
    rfl
  · obtain rfl := Except.error.inj h
    cases how <;> rfl
  · exact hf _ h

theorem kind_cutOpen {limit : Nat} {how : Lexer.Breakdown} {line : Nat} {b : UInt8}
    {bs : List UInt8} {e : Diagnostic} (h : (cutOpen limit how line b bs).2 = .error e) :
    e.problem.kind = .tokenize := by
  unfold cutOpen at h
  split_ifs at h with hd hl
  · exact kind_runOpen (fun _ => kind_number) h
  · exact kind_runOpen (fun _ => kind_word) h
  · simp only [cut, if_neg hd, if_neg hl] at h
    split at h
    · cases h
    · obtain rfl := Except.error.inj h
      rfl

theorem kind_lexOpen (limit : Nat) (how : Lexer.Breakdown) (before rest : List UInt8) :
    (lexOpen limit how before rest).2.problem.kind = .tokenize := by
  fun_induction lexOpen limit how before rest with
  | case1 => cases how <;> rfl
  | case2 before b bs hb ih => exact ih
  | case3 before b bs hb piece e he => exact kind_cutOpen he
  | case4 before b bs hb piece tok hok more ih => exact ih

end Munch

/-- A read that does not count right what it delivers delivers nothing. -/
theorem Feed.read_count (f : Feed) (room : Nat) :
    (f.read room).1.count = (f.read room).1.bytes.length ∨ (f.read room).1.bytes = [] := by
  unfold read
  split
  · exact .inl rfl
  · exact .inr rfl
  · split
    · exact .inr rfl
    · exact .inl rfl

namespace Lexer

/-- Where in its buffer a lexer takes bytes out. -/
def cursor (s : Lexer) : Nat := s.spent.length

/-- Where in its buffer a lexer reads bytes in. -/
def filled (s : Lexer) : Nat := s.spent.length + s.pending.length

def Act.taken : Act → List UInt8
  | take bytes => bytes
  | _ => []

def Act.received : Act → List UInt8
  | read _ got => got.bytes
  | _ => []

/-- The bytes taken out in the course of a history. -/
def taken (ms : List Moment) : List UInt8 := ms.flatMap (·.act.taken)

/-- The bytes that came in in the course of a history. -/
def received (ms : List Moment) : List UInt8 := ms.flatMap (·.act.received)

/-- After a history, the pending bytes are what came in and was not taken out, those before them in
the buffer are the last ones that were taken out, and all that the buffer holds has room in it. -/
structure Conserved (limit : Nat) (past : List Moment) (s : Lexer) : Prop where
  capacity : s.capacity = limit
  bytes : taken past ++ s.pending = received past
  spent : s.spent.reverse <:+ taken past
  cursor : s.cursor ≤ s.filled
  filled : s.filled + s.stale.length ≤ limit

variable {limit : Nat} {past ms ms' : List Moment} {s t : Lexer}

def Conserving (limit : Nat) (past : List Moment) : List Moment → Prop
  | [] => True
  | m :: ms => Conserved limit (past ++ [m]) m.lexer ∧ Conserving limit (past ++ [m]) ms

theorem conserving_append :
    Conserving limit past (ms ++ ms') ↔
      Conserving limit past ms ∧ Conserving limit (past ++ ms) ms' := by
  induction ms generalizing past with
  | nil => simp [Conserving]
  | cons m ms ih => simp [Conserving, ih, and_assoc]

def final {α : Type} : Outcome α → Lexer
  | .ok _ t => t
  | .error _ t => t

/-- A step keeps the buffer in order, all along its history and in the end. -/
structure Keeps {α : Type} (limit : Nat) (past ms : List Moment) (o : Outcome α) : Prop where
  along : Conserving limit past ms
  after : Conserved limit (past ++ ms) (final o)

theorem keeps_nil {α : Type} {o : Outcome α} (h : Conserved limit past (final o)) :
    Keeps limit past [] o :=
  ⟨trivial, by rwa [List.append_nil]⟩

theorem keeps_cons {α : Type} {m : Moment} {o : Outcome α}
    (hm : Conserved limit (past ++ [m]) m.lexer) (h : Keeps limit (past ++ [m]) ms o) :
    Keeps limit past (m :: ms) o := by
  refine ⟨⟨hm, h.along⟩, ?_⟩
  rw [List.append_cons]
  exact h.after

theorem Keeps.of_final_eq {α β : Type} {o : Outcome α} {o' : Outcome β} (h : Keeps limit past ms o)
    (ho : final o' = final o) : Keeps limit past ms o' :=
  ⟨h.along, ho ▸ h.after⟩

theorem Keeps.trans {α β : Type} {o : Outcome α} {o' : Outcome β} (h : Keeps limit past ms o)
    (h' : Conserved limit (past ++ ms) (final o) → Keeps limit (past ++ ms) ms' o') :
    Keeps limit past (ms ++ ms') o' := by
  have hnext := h' h.after
  refine ⟨conserving_append.2 ⟨h.along, hnext.along⟩, ?_⟩
  rw [← List.append_assoc]
  exact hnext.after

theorem taken_concat (past : List Moment) (m : Moment) :
    taken (past ++ [m]) = taken past ++ m.act.taken := by
  simp [taken]

theorem received_concat (past : List Moment) (m : Moment) :
    received (past ++ [m]) = received past ++ m.act.received := by
  simp [received]

theorem Conserved.slide (h : Conserved limit past s) :
    Conserved limit (past ++ [⟨.slide, s.slide⟩]) s.slide where
  capacity := h.capacity
  bytes := by
    rw [taken_concat, received_concat]
    simpa [Act.taken, Act.received, Lexer.slide] using h.bytes
  spent := List.nil_suffix
  cursor := Nat.zero_le _
  filled := by
    have := h.filled
    simp only [Lexer.filled, Lexer.slide, List.length_drop, List.length_append, List.length_reverse,
      List.length_nil] at this ⊢
    omega

theorem Conserved.consume (h : Conserved limit past s) (n : Nat) :
    Conserved limit (past ++ [⟨.take (s.pending.take n), s.consume n⟩]) (s.consume n) where
  capacity := h.capacity
  bytes := by
    rw [taken_concat, received_concat]
    simpa [Act.taken, Act.received, Lexer.consume] using h.bytes
  spent := by
    obtain ⟨before, hbefore⟩ := h.spent
    refine ⟨before, ?_⟩
    rw [taken_concat, ← hbefore]
    simp [Act.taken, Lexer.consume]
  cursor := Nat.le_add_right _ _
  filled := by
    have := h.filled
    simp only [Lexer.filled, Lexer.consume, List.length_drop, List.length_append,
      List.length_reverse, List.length_take] at this ⊢
    omega

theorem Conserved.skipBlanks (h : Conserved limit past s) :
    Conserved limit (past ++ [⟨.take (s.pending.takeWhile isBlank), s.skipBlanks⟩])
      s.skipBlanks := by
  have hblanks : s.pending.take (s.pending.takeWhile isBlank).length =
      s.pending.takeWhile isBlank :=
    (List.prefix_iff_eq_take.1 (List.takeWhile_prefix isBlank)).symm
  have hc := h.consume (s.pending.takeWhile isBlank).length
  rw [hblanks] at hc
  -- skipping differs from taking out only in the line, which nothing here depends on
  refine ⟨hc.capacity, ?_, ?_, hc.cursor, hc.filled⟩
  · have hbytes := hc.bytes
    rw [taken_concat, received_concat] at hbytes ⊢
    exact hbytes
  · have hspent := hc.spent
    rw [taken_concat] at hspent ⊢
    exact hspent

theorem receive_stale (s : Lexer) (bytes : List UInt8) :
    (s.receive bytes.length bytes).stale = s.stale.drop bytes.length := by
  simp [receive]

/-- What comes in is put behind the pending bytes, and it has room there. -/
theorem Conserved.receive (h : Conserved limit past s) (room : Nat) (got : Delivery) (feed : Feed)
    (hspent : s.spent = []) (hcount : got.count = got.bytes.length)
    (hroom : got.bytes.length ≤ s.room) :
    let t := ({ s with feed } : Lexer).receive got.count.toNat got.bytes
    Conserved limit (past ++ [⟨.read room got, t⟩]) t := by
  intro t
  have ht : t = ({ s with feed } : Lexer).receive got.bytes.length got.bytes := by
    simp [t, hcount]
  have hpending : t.pending = s.pending ++ got.bytes := by
    rw [ht]
    exact receive_pending _ got.bytes
  have hstale : t.stale = s.stale.drop got.bytes.length := by
    rw [ht]
    exact receive_stale _ got.bytes
  have hspent' : t.spent = [] := by
    rw [ht]
    exact hspent
  exact
    { capacity := h.capacity
      bytes := by
        rw [taken_concat, received_concat, hpending, ← h.bytes]
        simp [Act.taken, Act.received]
      spent := by
        rw [hspent']
        exact List.nil_suffix
      cursor := Nat.le_add_right _ _
      filled := by
        have hfilled := h.filled
        have hcap := h.capacity
        simp only [Lexer.filled, hspent, hspent', hpending, hstale, List.length_nil,
          List.length_append, List.length_drop, Lexer.room] at hfilled hroom ⊢
        omega }

theorem Conserved.refused (h : Conserved limit past s) (room : Nat) (got : Delivery) (feed : Feed)
    (hnil : got.bytes = []) :
    Conserved limit (past ++ [⟨.read room got, { s with feed }⟩]) { s with feed } where
  capacity := h.capacity
  bytes := by
    rw [taken_concat, received_concat]
    simpa [Act.taken, Act.received, hnil] using h.bytes
  spent := by
    rw [taken_concat]
    simpa [Act.taken] using h.spent
  cursor := h.cursor
  filled := h.filled

/-- A read that counts right what it delivers, or is refused. -/
def Fair (r : Nat × Delivery) : Prop :=
  r.2.count = r.2.bytes.length ∨ r.2.count < 0 ∨ r.1 < r.2.count

theorem readMore_keeps {tries : Nat} (h : Conserved limit past s) (hspent : s.spent = [])
    (hfair : ∀ r ∈ reads (historyMore tries s), Fair r) :
    Keeps limit past (historyMore tries s) (readMore tries s) := by
  induction tries generalizing past s with
  | zero => exact keeps_nil h
  | succ tries ih =>
    have hbytes := s.feed.length_read_bytes s.room
    have hcounted := s.feed.read_count s.room
    simp only [historyMore] at hfair ⊢
    simp only [readMore]
    generalize s.feed.read s.room = answer at hfair hbytes hcounted ⊢
    obtain ⟨⟨count, got, ending⟩, rest⟩ := answer
    simp only at hfair hbytes hcounted ⊢
    have hroom : ({ s with feed := rest } : Lexer).room = s.room := rfl
    rw [hroom] at hfair ⊢
    by_cases hbad : count < 0 ∨ (s.room : Int) < count
    · rw [if_pos hbad, if_pos hbad]
      -- a refused count stores nothing
      have hnil : got = [] := hcounted.resolve_left (by omega)
      have hsame := h.refused s.room ⟨count, got, ending⟩ rest hnil
      exact keeps_cons hsame (keeps_nil hsame)
    · rw [if_neg hbad] at hfair ⊢
      rw [if_neg hbad]
      -- what is not refused is fair, so it counts the bytes that it brought
      have hcount : count = got.length := by
        rcases hfair (s.room, ⟨count, got, ending⟩) (by simp [reads, Act.read?]) with hc | hc
        · exact hc
        · exact absurd hc hbad
      have hgot := h.receive s.room ⟨count, got, ending⟩ rest hspent hcount hbytes
      generalize hu : ({ s with feed := rest } : Lexer).receive count.toNat got = u at hfair hgot ⊢
      have hspent' : u.spent = [] := by
        rw [← hu]
        exact hspent
      apply keeps_cons hgot
      cases ending with
      | endOfInput =>
        rw [if_neg (by simp)]
        exact keeps_nil ⟨hgot.capacity, hgot.bytes, hgot.spent, hgot.cursor, hgot.filled⟩
      | failure text =>
        rw [if_neg (by simp)]
        exact keeps_nil hgot
      | more =>
        by_cases hzero : count = 0
        · rw [if_pos ⟨hzero, rfl⟩] at hfair ⊢
          dsimp only
          rw [if_neg (by omega)]
          exact ih hgot hspent' fun r hr => hfair r (List.mem_cons_of_mem _ hr)
        · rw [if_neg (by simp [hzero])]
          dsimp only
          rw [if_pos (by omega)]
          exact keeps_nil ⟨hgot.capacity, hgot.bytes, hgot.spent, hgot.cursor, hgot.filled⟩

theorem refill_keeps (h : Conserved limit past s)
    (hfair : ∀ r ∈ reads s.historyRefill, Fair r) :
    Keeps limit past s.historyRefill (refill s) := by
  unfold historyRefill at hfair ⊢
  apply keeps_cons h.slide
  by_cases hfull : s.capacity ≤ s.pending.length
  · rw [if_pos hfull, refill_full hfull]
    exact keeps_nil h.slide
  · have hmore : refill s = readMore maxEmptyReads s.slide := if_neg hfull
    rw [if_neg hfull] at hfair ⊢
    rw [hmore]
    exact readMore_keeps h.slide rfl hfair

theorem historyTake_keeps {α : Type} {a : α} (h : Conserved limit past s) (n : Nat) :
    Keeps limit past (s.historyTake n) (.ok a (s.consume n)) :=
  keeps_cons (h.consume n) (keeps_nil (h.consume n))

theorem fair_append (ms ms' : List Moment) (h : ∀ r ∈ reads (ms ++ ms'), Fair r) :
    (∀ r ∈ reads ms, Fair r) ∧ ∀ r ∈ reads ms', Fair r := by
  rw [reads_append] at h
  exact List.forall_mem_append.1 h

theorem run_keeps {p : UInt8 → Bool} (h : Conserved limit past s)
    (hfair : ∀ r ∈ reads (historyRun p s), Fair r) :
    Keeps limit past (historyRun p s) (run p s) := by
  fun_induction run p s generalizing past
  case case1 s n hn e t ht =>
    -- `n` is the length of the run within the buffer
    have hn : s.pending.length ≤ runLength p s.pending ∧ s.ended = false := hn
    rw [historyRun_eq, if_pos hn, ht, List.append_nil] at hfair ⊢
    exact (refill_keeps h hfair).of_final_eq (by rw [ht]; rfl)
  case case2 s n hn t ht ih =>
    have hn : s.pending.length ≤ runLength p s.pending ∧ s.ended = false := hn
    rw [historyRun_eq, if_pos hn, ht] at hfair ⊢
    obtain ⟨hrefill, hrest⟩ := fair_append _ _ hfair
    refine (refill_keeps h hrefill).trans fun hc => ?_
    rw [ht] at hc
    exact ih hc hrest
  case case3 s n hn hcap =>
    have hn : ¬(s.pending.length ≤ runLength p s.pending ∧ s.ended = false) := hn
    have hcap : s.capacity ≤ runLength p s.pending := hcap
    rw [historyRun_eq, if_neg hn, if_pos hcap]
    exact keeps_nil h
  case case4 s n hn hcap =>
    have hn : ¬(s.pending.length ≤ runLength p s.pending ∧ s.ended = false) := hn
    have hcap : ¬s.capacity ≤ runLength p s.pending := hcap
    rw [historyRun_eq, if_neg hn, if_neg hcap]
    exact historyTake_keeps h (runLength p s.pending)

theorem final_number (s : Lexer) : final (number s) = final (run isDigit s) := by
  unfold number
  cases run isDigit s with
  | error e t => rfl
  | ok digits t =>
    dsimp only
    split <;> rfl

theorem final_word (s : Lexer) : final (word s) = final (run isAlnum s) := by
  unfold word
  cases run isAlnum s with
  | error e t => rfl
  | ok bytes t =>
    dsimp only
    split <;> rfl

theorem token_keeps {b : UInt8} (h : Conserved limit past s)
    (hfair : ∀ r ∈ reads (historyToken b s), Fair r) :
    Keeps limit past (historyToken b s) (token b s) := by
  unfold historyToken at hfair ⊢
  unfold token
  split_ifs at hfair ⊢ with hd hl hmark
  · exact (run_keeps h hfair).of_final_eq (final_number s)
  · exact (run_keeps h hfair).of_final_eq (final_word s)
  · obtain ⟨type, hmark⟩ := Option.isSome_iff_exists.1 hmark
    rw [hmark]
    exact historyTake_keeps h 1
  · rw [Option.not_isSome_iff_eq_none.1 hmark]
    exact keeps_nil h

theorem next_keeps (h : Conserved limit past s) (hfair : ∀ r ∈ reads s.historyNext, Fair r) :
    Keeps limit past s.historyNext (next s) := by
  fun_induction next s generalizing past
  case case1 s b rest hp =>
    rw [historyNext_eq, hp] at hfair ⊢
    exact keeps_cons h.skipBlanks (token_keeps h.skipBlanks hfair)
  case case2 s hp hstop =>
    rw [historyNext_eq, hp]
    simp only [if_pos hstop]
    exact keeps_cons h.skipBlanks (keeps_nil h.skipBlanks)
  case case3 s hp hrun e t ht =>
    rw [historyNext_eq, hp] at hfair ⊢
    simp only [if_neg hrun, ht, List.append_nil] at hfair ⊢
    have hrefill := refill_keeps h.skipBlanks hfair
    exact keeps_cons h.skipBlanks (hrefill.of_final_eq (by rw [ht]; rfl))
  case case4 s hp hrun t ht ih =>
    rw [historyNext_eq, hp] at hfair ⊢
    simp only [if_neg hrun, ht] at hfair ⊢
    obtain ⟨hrefill, hrest⟩ := fair_append s.skipBlanks.historyRefill _ hfair
    refine keeps_cons h.skipBlanks ((refill_keeps h.skipBlanks hrefill).trans fun hc => ?_)
    rw [ht] at hc
    exact ih hc hrest

theorem tokens_keeps (h : Conserved limit past s) (hfair : ∀ r ∈ reads s.history, Fair r) :
    Keeps limit past s.history s.tokens.2 := by
  fun_induction tokens s generalizing past
  case case1 s e t ht =>
    rw [history_eq, ht, List.append_nil] at hfair ⊢
    exact (next_keeps h hfair).of_final_eq (by rw [ht]; rfl)
  case case2 s tok t ht heof =>
    rw [history_eq, ht] at hfair ⊢
    simp only [if_pos heof, List.append_nil] at hfair ⊢
    exact (next_keeps h hfair).of_final_eq (by rw [ht]; rfl)
  case case3 s tok t ht hne rest ih =>
    rw [history_eq, ht] at hfair ⊢
    simp only [if_neg hne] at hfair ⊢
    obtain ⟨hnext, hrest⟩ := fair_append _ _ hfair
    refine (next_keeps h hnext).trans fun hc => ?_
    rw [ht] at hc
    exact ih hc hrest

theorem conserved_start (feed : Feed) (size : Option Int) :
    Conserved (capacityOf size) [] (start feed size) where
  capacity := rfl
  bytes := rfl
  spent := List.nil_suffix
  cursor := Nat.zero_le _
  filled := Nat.zero_le _

theorem Breaks.fair {how : Breakdown} {last bytes : List UInt8} {idle : Nat}
    {rs : List (Nat × Delivery)} (h : Breaks how last idle bytes rs) : ∀ r ∈ rs, Fair r := by
  induction h with
  | unread => simp
  | failure hcount => simp [Fair, hcount]
  | invalidCount hcount => simp [Fair, hcount]
  | noProgress hplain => simp [Fair, hplain.count]
  | empty hplain _ _ _ ih => exact List.forall_mem_cons.2 ⟨.inl hplain.count, ih⟩
  | more hplain _ _ _ ih => exact List.forall_mem_cons.2 ⟨.inl hplain.count, ih⟩

end Lexer

/-- No token comes too early. A feed delivers bytes in any split and then breaks off in a way that
is noticed: lexing stops with an error, the tokens are the first ones of every text that goes on
from the bytes delivered, and at every moment and in the end the buffer holds the bytes that came in
and were not taken out, within its capacity. -/
theorem no_premature_token (feed : Feed) (size : Option Int) (how : Lexer.Breakdown)
    (bytes last : List UInt8)
    (h : Lexer.Breaks how last 0 bytes (Lexer.reads (history feed size))) :
    (∃ e, (tokenize feed size).error = some e ∧ e.report.kind = .tokenize) ∧
      (∀ c, (tokenize feed size).tokens <+:
        (Munch.lex (Lexer.capacityOf size) [] (bytes ++ last ++ c)).1) ∧
      (∀ past m future, history feed size = past ++ m :: future →
        Lexer.Conserved (Lexer.capacityOf size) (past ++ [m]) m.lexer) ∧
      Lexer.Conserved (Lexer.capacityOf size) (history feed size)
        (Lexer.final (Lexer.start feed size).tokens.2) := by
  obtain ⟨htokens, herror⟩ := tokenize_eq_lexOpen h
  have hkeeps := Lexer.tokens_keeps (Lexer.conserved_start feed size) h.fair
  refine ⟨⟨_, herror, Munch.kind_lexOpen ..⟩, fun c => ?_, fun past m future hsplit => ?_,
    hkeeps.after⟩
  · -- `last` came in too late to be lexed, so it is part of what may come next
    rw [htokens, List.append_assoc]
    exact Munch.lexOpen_prefix ..
  · have halong := hkeeps.along
    rw [show (Lexer.start feed size).history = past ++ m :: future from hsplit,
      Lexer.conserving_append] at halong
    exact halong.2.1

theorem no_premature_token_breaking :
    Lexer.Breaks (.failure "gone") [99] 0 [97, 98, 59] (Lexer.reads (history breaking (some 3))) ∧
      (∃ e, (tokenize breaking (some 3)).error = some e ∧ e.report.kind = .tokenize) ∧
      ∀ c, (tokenize breaking (some 3)).tokens <+: (Munch.lex 3 [] ([97, 98, 59, 99] ++ c)).1 := by
  have h : Lexer.Breaks (.failure "gone") [99] 0 [97, 98, 59]
      (Lexer.reads (history breaking (some 3))) := by
    rw [reads_failing.2.2.2]
    exact .more ⟨rfl, rfl⟩ (by simp) rfl (.empty ⟨rfl, rfl⟩ rfl (by decide)
      (.more ⟨rfl, rfl⟩ (by simp) rfl (.failure rfl rfl rfl)))
  have key := no_premature_token breaking (some 3) (.failure "gone") [97, 98, 59] [99] h
  exact ⟨h, key.1, key.2.1⟩

end OnePass

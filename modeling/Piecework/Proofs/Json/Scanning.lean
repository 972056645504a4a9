import Piecework.Json.Value
import Piecework.Proofs.Decimal.RoundTrip
import Piecework.Proofs.Decimal.Whole

/-!
# Scanning what was written

Each part of a written text is scanned as the tokens it was written for, whatever stands
behind it.  A quoted text or a word ends with its last character.  A number ends only where the
next token begins, so `Scans` asks for a punctuation mark or the end of the text behind.

* `scans_quoted`: escaped characters are read back, the escapes by number among them.
* `scans_integer`: the digits of an integer are kept, as long as a word has room for them.
* `scans_of_ofChars`: a text that is scanned as a single number on its own is scanned so in any
  place.
* `ofOctets_toUTF8`: it makes no difference that a text is carried in UTF-8.
-/

namespace Piecework.Json.Token

/-! ## A stretch of text -/

namespace State

/-- The state behind a stretch of text, and the tokens that it completes. -/
def advance (s : State) : List Char → State × List Token
  | [] => (s, [])
  | c :: cs => (((s.step c).1.advance cs).1, (s.step c).2 ++ ((s.step c).1.advance cs).2)

theorem run_append (s : State) (cs rest : List Char) :
    s.run (cs ++ rest) = (s.advance cs).2 ++ (s.advance cs).1.run rest := by
  induction cs generalizing s with
  | nil => rfl
  | cons c cs ih => rw [List.cons_append, run, ih, advance, List.append_assoc]

theorem advance_append {s s' s'' : State} {cs ds : List Char} {ts ts' : List Token}
    (h : s.advance cs = (s', ts)) (h' : s'.advance ds = (s'', ts')) :
    s.advance (cs ++ ds) = (s'', ts ++ ts') := by
  induction cs generalizing s ts with
  | nil =>
    cases h
    exact h'
  | cons c cs ih =>
    rw [advance, Prod.mk.injEq] at h
    obtain ⟨hs, rfl⟩ := h
    rw [List.cons_append, advance, ih (Prod.ext hs rfl), List.append_assoc]

theorem advance_cons {s s' s'' : State} {c : Char} {cs : List Char} {ts : List Token}
    (h : s.step c = (s', [])) (h' : s'.advance cs = (s'', ts)) :
    s.advance (c :: cs) = (s'', ts) := by
  rw [advance, h]
  exact h'

theorem advance_singleton (s : State) (c : Char) : s.advance [c] = s.step c := by
  rw [advance, advance, List.append_nil]

theorem fault_mem_first {c : Char} (h : (first c).1 = failed) : .fault ∈ (first c).2 := by
  grind [first, fail]

theorem fault_mem_step {s : State} {c : Char} (hs : s ≠ failed) (h : (s.step c).1 = failed) :
    .fault ∈ (s.step c).2 := by
  cases s with
  | between => exact fault_mem_first h
  | number n =>
    rw [step] at h ⊢
    split at h <;> simp_all [fail, fault_mem_first]
  | failed => exact absurd rfl hs
  | word left token =>
    match left with
    | [] => exact List.mem_singleton_self _
    | [_] | _ :: _ :: _ => grind [step, fail]
  | quote | escape | code => grind [step, fail]

/-- Nothing stops the scanner without a token that says so. -/
theorem fault_mem_advance {s : State} {cs : List Char} (hs : s ≠ failed)
    (h : (s.advance cs).1 = failed) : .fault ∈ (s.advance cs).2 := by
  induction cs generalizing s with
  | nil => exact absurd h hs
  | cons c cs ih =>
    rw [advance, List.mem_append]
    by_cases hnext : (s.step c).1 = failed
    · exact .inl (fault_mem_step hs hnext)
    · exact .inr (ih hnext h)

end State

open State

/-- What may stand behind a number: nothing, or a punctuation mark. -/
def Delimited (rest : List Char) : Prop :=
  ∀ c ∈ rest.head?, (punctuation? c).isSome = true

/-- Behind a delimiter as at the beginning of the text, the text is scanned as the tokens. -/
def Scans (cs : List Char) (tokens : List Token) : Prop :=
  ∀ rest, Delimited rest → between.run (cs ++ rest) = tokens ++ between.run rest

theorem scans_of_advance {cs : List Char} {tokens : List Token}
    (h : between.advance cs = (between, tokens)) : Scans cs tokens := by
  intro rest _
  rw [run_append, h]

theorem Scans.ofChars_eq {cs : List Char} {tokens : List Token} (h : Scans cs tokens) :
    ofChars cs = tokens := by
  have hend := h [] nofun
  rwa [List.append_nil, run, finish, List.append_nil] at hend

theorem run_punctuation {c : Char} {token : Token} (h : punctuation? c = some token)
    (rest : List Char) : between.run (c :: rest) = token :: between.run rest := by
  have hspace : isSpace c = false := by
    unfold punctuation? at h
    split at h <;> first | rfl | cases h
  have hfirst : first c = (between, [token]) := by
    simp [first, hspace, h]
  rw [run, step, hfirst]
  rfl

theorem delimited_of_punctuation {c : Char} {token : Token} (h : punctuation? c = some token)
    (rest : List Char) : Delimited (c :: rest) := by
  rintro _ ⟨⟩
  rw [h]
  rfl

/-- A closing mark is scanned as its token. -/
theorem Scans.close {cs : List Char} {tokens : List Token} (h : Scans cs tokens) {c : Char}
    {token : Token} (hc : punctuation? c = some token) : Scans (cs ++ [c]) (tokens ++ [token]) := by
  intro rest _
  rw [List.append_assoc, List.singleton_append, h _ (delimited_of_punctuation hc rest),
    run_punctuation hc, List.append_assoc]
  rfl

/-- Two texts with a mark between them. -/
theorem Scans.mark {cs ds : List Char} {tokens tokens' : List Token} (h : Scans cs tokens)
    (h' : Scans ds tokens') {c : Char} {token : Token} (hc : punctuation? c = some token) :
    Scans (cs ++ c :: ds) (tokens ++ token :: tokens') := by
  intro rest hrest
  rw [List.append_assoc, List.cons_append, h _ (delimited_of_punctuation hc _),
    run_punctuation hc, h' rest hrest, List.append_assoc]
  rfl

/-! ## Words and quoted texts -/

theorem scans_null : Scans ['n', 'u', 'l', 'l'] [.null] :=
  scans_of_advance (by decide)

theorem scans_true : Scans ['t', 'r', 'u', 'e'] [.bool true] :=
  scans_of_advance (by decide)

theorem scans_false : Scans ['f', 'a', 'l', 's', 'e'] [.bool false] :=
  scans_of_advance (by decide)

theorem hexValue?_hexDigit : ∀ n < 16, hexValue? (hexDigit n) = some n := by decide

/-- An escape by number gives a control character back. -/
theorem advance_code (q : Quote) {c : Char} (h : c.toNat < 0x20) :
    (quote q).advance ['\\', 'u', '0', '0', hexDigit (c.toNat / 16), hexDigit (c.toNat % 16)] =
      (quote (q.push c), []) := by
  have hhigh := hexValue?_hexDigit (c.toNat / 16) (by omega)
  have hlow := hexValue?_hexDigit (c.toNat % 16) (by omega)
  have hzero : hexValue? '0' = some 0 := by decide
  have hcode : 16 * (c.toNat / 16) + c.toNat % 16 = c.toNat := by omega
  have hpush : q.pushCode c.toNat = q.push c := by
    rw [Quote.pushCode, if_neg (by omega), if_neg (by omega), Char.ofNat_toNat]
  simp [advance, step, hzero, hhigh, hlow, hcode, hpush]

/-- A character is read back from its escape. -/
theorem advance_escapeChar (q : Quote) (c : Char) :
    (quote q).advance (escapeChar c) = (quote (q.push c), []) := by
  unfold escapeChar
  split_ifs with hquote hback hplain h8 ht hn hf hr
  case pos => subst hquote; rfl
  case pos => subst hback; rfl
  case pos =>
    have hnot : ¬c.toNat < 0x20 := by omega
    simp [advance, step, hquote, hback, hnot]
  case neg => exact advance_code q (by omega)
  all_goals
    subst_vars
    rfl

theorem foldl_push (acc cs : List Char) :
    cs.foldl Quote.push ⟨some acc, none⟩ = ⟨some (cs.reverse ++ acc), none⟩ := by
  induction cs generalizing acc with
  | nil => rfl
  | cons c cs ih =>
    rw [List.foldl_cons, Quote.push]
    dsimp only [Option.map_some]
    rw [ih, List.reverse_cons, List.append_assoc]
    rfl

theorem advance_escaped (q : Quote) (cs : List Char) :
    (quote q).advance (cs.flatMap escapeChar) = (quote (cs.foldl Quote.push q), []) := by
  induction cs generalizing q with
  | nil => rfl
  | cons c cs ih =>
    rw [List.flatMap_cons]
    exact advance_append (advance_escapeChar q c) (ih (q.push c))

theorem advance_quoted (s : String) :
    between.advance (quoted s) = (between, [.text (some s)]) := by
  have hopen : between.step '"' = (quote .start, []) := by decide
  have hchars := advance_escaped .start s.toList
  rw [Quote.start, foldl_push, List.append_nil] at hchars
  refine advance_cons hopen (advance_append hchars ?_)
  rw [advance_singleton]
  simp [step, Quote.token]

theorem scans_quoted (s : String) : Scans (quoted s) [.text (some s)] :=
  scans_of_advance (advance_quoted s)

/-! ## Numbers -/

/-- The number may end here. -/
def Digits.Complete (n : Digits) : Prop := n.token ≠ .fault

theorem Digits.Complete.token_eq {n : Digits} (hn : n.Complete) : n.token = .number n.number := by
  unfold Complete token at hn
  unfold token
  split <;> simp_all

theorem Digits.Complete.over {n : Digits} (hn : n.Complete) {c : Char}
    (hc : (punctuation? c).isSome = true) : n.step c = .over := by
  obtain ⟨phase, negative, digits, excess, places, full, exponentNegative, exponent⟩ := n
  unfold punctuation? at hc
  split at hc
  case h_7 => cases hc
  all_goals cases phase <;> first | rfl | exact absurd rfl hn

/-- A complete number ends in front of a delimiter. -/
theorem scans_number {cs : List Char} {n : Digits}
    (h : between.advance cs = (State.number n, [])) (hn : n.Complete) :
    Scans cs [.number n.number] := by
  intro rest hrest
  rw [run_append, h, List.nil_append]
  cases rest with
  | nil =>
    change [n.token] = _
    rw [hn.token_eq]
    rfl
  | cons c rest =>
    change ((State.number n).step c).2 ++ ((State.number n).step c).1.run rest = _
    rw [step, hn.over (hrest c rfl), run]
    rfl

/-- A text that is scanned as a number on its own is scanned so in any place. -/
theorem scans_of_ofChars {cs : List Char} {n : Number} (h : ofChars cs = [.number n]) :
    Scans cs [.number n] := by
  have hrun := run_append between cs []
  rw [List.append_nil, show between.run cs = [.number n] from h] at hrun
  cases hadvance : between.advance cs with
  | mk s tokens =>
    rw [hadvance] at hrun
    cases s with
    | between =>
      rw [run, finish, List.append_nil] at hrun
      exact scans_of_advance (hrun ▸ hadvance)
    | number d =>
      rw [run, finish] at hrun
      cases tokens with
      | nil =>
        have htoken : d.token = .number n := by simpa using hrun.symm
        have hcomplete : d.Complete := by simp [Digits.Complete, htoken]
        have hsame : d.number = n := Token.number.inj (hcomplete.token_eq.symm.trans htoken)
        exact hsame ▸ scans_number hadvance hcomplete
      | cons => simp at hrun
    | failed =>
      have hfault : .fault ∈ (between.advance cs).2 :=
        fault_mem_advance nofun (by rw [hadvance])
      rw [run, finish, List.append_nil] at hrun
      rw [hadvance, ← hrun] at hfault
      simp at hfault
    | word | quote | escape | code =>
      rw [run, finish] at hrun
      cases tokens <;> simp at hrun

/-- A positive number of which everything is kept. -/
def Digits.ofNat (negative : Bool) (n : Nat) : Digits :=
  ⟨.whole, negative, n, 0, 0, false, false, 0⟩

theorem Digits.complete_ofNat (negative : Bool) (n : Nat) : (ofNat negative n).Complete := by
  simp [Complete, token, ofNat]

/-- Digits are kept as long as a word has room for them.  The number may have begun with a minus,
or begin with its first digit. -/
theorem advance_digitChars (s : State) (negative : Bool)
    (hs : ∀ d < 10, 0 < d →
      s.step (Nat.digitChar d) = (State.number (.ofNat negative d), []))
    {n : Nat} (hpos : 0 < n) (hn : n < UInt64.size) :
    s.advance (Decimal.digitChars n) = (State.number (.ofNat negative n), []) := by
  have hdigit : ∀ d < 10, Text.digit? (Nat.digitChar d) = some d := by decide
  induction n using Nat.strong_induction_on with
  | _ n ih =>
    unfold Decimal.digitChars at ih ⊢
    rcases lt_or_ge n 10 with hsmall | hlarge
    · rw [Nat.toDigits_of_lt_base hsmall, advance_singleton]
      exact hs n hsmall hpos
    · have hlast := hdigit (n % 10) (Nat.mod_lt _ (by norm_num))
      have hwhole : 10 * (n / 10) + n % 10 = n := Nat.div_add_mod n 10
      rw [Nat.toDigits_of_base_le (by norm_num) hlarge]
      have hstep : (State.number (.ofNat negative (n / 10))).advance [(n % 10).digitChar] =
          (State.number (.ofNat negative n), []) := by
        rw [advance_singleton]
        simp [step, Digits.step, hlast, Digits.pushWhole, Digits.fits, Digits.ofNat, hwhole, hn]
      exact advance_append (ih (n / 10) (by omega) (by omega) (by omega)) hstep

/-- An integer that fits into a word, or is the opposite of one that does, is read back. -/
theorem scans_integer {n : Int} (hn : n.natAbs < UInt64.size) :
    Scans (integerChars n) [.number (.ofInt n)] := by
  unfold integerChars
  rcases lt_trichotomy n 0 with hneg | rfl | hpos
  · have hminus : between.step '-' = (State.number (.start true), []) := by decide
    have hdigits := advance_digitChars (.number (.start true)) true (by decide)
      (by omega : 0 < n.natAbs) hn
    have hscans := scans_number (advance_cons hminus hdigits) (Digits.complete_ofNat true _)
    rw [if_pos hneg]
    simpa [Digits.number, Digits.ofNat, Number.ofInt, hneg] using hscans
  · exact scans_of_ofChars (by decide)
  · have hdigits := advance_digitChars between false (by decide)
      (by omega : 0 < n.natAbs) hn
    have hscans := scans_number hdigits (Digits.complete_ofNat false _)
    rw [if_neg hpos.not_gt]
    simpa [Digits.number, Digits.ofNat, Number.ofInt, hpos.not_gt] using hscans

/-! ## Texts in octets -/

theorem State.runPieces_map_some (s : State) (cs : List Char) :
    s.runPieces (cs.map some) = s.run cs := by
  induction cs generalizing s with
  | nil => rfl
  | cons c rest ih => rw [List.map_cons, runPieces, run, ih, stepPiece]

/-- Behind any octets, the pieces of an encoded text are its characters. -/
theorem piecesFrom_utf8Encode (front : ByteArray) (cs : List Char) :
    piecesFrom (front ++ cs.utf8Encode) front.size = cs.map some := by
  induction cs generalizing front with
  | nil => rw [List.utf8Encode_nil, ByteArray.append_empty, piecesFrom, if_neg (Nat.lt_irrefl _),
      List.map_nil]
  | cons c rest ih =>
    have hsize : [c].utf8Encode.size = c.utf8Size := by
      rw [List.utf8Encode_singleton, List.size_toByteArray, String.length_utf8EncodeChar]
    have hlt : front.size < (front ++ (c :: rest).utf8Encode).size := by
      have hpos := c.utf8Size_pos
      rw [List.utf8Encode_cons, ByteArray.size_append, ByteArray.size_append, hsize]
      omega
    have hdecode : (front ++ (c :: rest).utf8Encode).utf8DecodeChar? front.size = some c := by
      rw [ByteArray.utf8DecodeChar?_eq_utf8DecodeChar?_extract,
        ByteArray.extract_append_eq_right rfl ByteArray.size_append, List.utf8Encode_cons,
        List.utf8DecodeChar?_utf8Encode_singleton_append]
    rw [piecesFrom, if_pos hlt, hdecode]
    dsimp only
    have hrest := ih (front ++ [c].utf8Encode)
    rw [ByteArray.size_append, hsize, ByteArray.append_assoc, ← List.utf8Encode_cons] at hrest
    rw [hrest, List.map_cons]

/-- A text in UTF-8 has the tokens of the text. -/
theorem ofOctets_toUTF8 (s : String) : ofOctets s.toUTF8 = ofChars s.toList := by
  have hpieces := piecesFrom_utf8Encode ByteArray.empty s.toList
  rw [ByteArray.empty_append, String.utf8Encode_toList] at hpieces
  rw [ofOctets, ofChars, ← State.runPieces_map_some, ← hpieces]
  rfl

end Piecework.Json.Token

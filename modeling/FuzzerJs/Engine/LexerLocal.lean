import FuzzerJs.Engine.Lexer

/-!
# What the tokenizer depends on

A run of the tokenizer that reaches `TOK_EOF` depends on the bytes up to the zero that it
took for the end, and on no byte after it (`tokens_same`); and it did take a zero for the
end (`tokens_eof`).  The first is the locality of every scanner of the tokenizer, put
together along the code with the rules for `Scan.Local`; each byte is looked at either
because the scan has come to it, or after the byte before was seen not to be zero.
-/

namespace FuzzerJs
namespace Engine

open Scan

section Local

variable {m m' : Mem} {q : ℕ}

/-! ## Identifiers -/

theorem identChar_sameTo (h : SameTo m m' q) (fuel : ℕ) {p : ℕ} (hp : p ≤ q)
    (hasEscape : Bool) : identChar m' fuel p hasEscape = identChar m fuel p hasEscape := by
  rw [identChar, identChar, h.read hp, unicodeFromUtf8_sameTo h hp]
  by_cases hb : m p = ch '\\'
  · have hp1 := h.succ_le hp (by rw [hb]; decide)
    rw [h.read hp1, parseEscape_sameTo h fuel hp1]
  · simp [hb]

theorem le_identChar {fuel p : ℕ} {hasEscape : Bool} {r : ℕ × ℕ × Bool}
    (h : identChar m fuel p hasEscape = .ok r) : p ≤ r.2.1 := by
  rw [identChar] at h
  split at h
  · obtain ⟨e, he, hr⟩ := Res.bind_eq_ok.mp h
    cases e with
    | char c next =>
        cases hr
        have := parseEscape_lt he
        simp only
        omega
    | malformed => cases hr; exact Nat.le_succ p
    | none => cases hr; exact Nat.le_succ p
  · split at h
    · split at h
      · rename_i hu
        cases h
        exact (unicodeFromUtf8_lt hu).le
      · cases h
        exact Nat.le_succ p
    · cases h
      exact Nat.le_succ p

theorem identLoop_local (h : SameTo m m' q) (T : Tables) (tooLong : String) :
    ∀ (fuel p : ℕ) (buf : List UInt8) (c : ℕ) (hasEscape : Bool),
      Local (identLoop m' T tooLong fuel p buf c hasEscape)
        (identLoop m T tooLong fuel p buf c hasEscape) (fun r => r.2.2) p q := by
  intro fuel
  induction fuel with
  | zero => intro p buf c hasEscape; exact Local.timeout
  | succ fuel ih =>
      intro p buf c hasEscape
      simp only [identLoop]
      refine Local.congr (fun hp => by rw [identChar_sameTo h fuel hp]) ?_
      cases hc : identChar m fuel p hasEscape with
      | timeout => exact Local.timeout
      | error message => exact Local.error
      | ok r =>
          obtain ⟨d, next, esc⟩ := r
          refine Local.ite (fun _ => Iff.rfl) (fun _ => Local.ok le_rfl) fun _ => ?_
          refine Local.ite (fun _ => Iff.rfl) (fun _ => Local.error) fun _ => ?_
          exact (ih next _ d esc).weaken (le_identChar hc)

theorem scanIdent_local (h : SameTo m m' q) (cfg : LexConfig) (fuel p c : ℕ)
    (hasEscape : Bool) :
    Local (scanIdent cfg m' fuel p c hasEscape) (scanIdent cfg m fuel p c hasEscape)
      Prod.snd p q :=
  (identLoop_local h cfg.tables _ fuel p [] c hasEscape).bind fun _ _ => Local.ok le_rfl

theorem scanPrivateName_local (h : SameTo m m' q) (cfg : LexConfig) (fuel p : ℕ) :
    Local (scanPrivateName cfg m' fuel p) (scanPrivateName cfg m fuel p) Prod.snd p q := by
  simp only [scanPrivateName]
  refine Local.congr (fun hp => by rw [identChar_sameTo h fuel hp]) ?_
  cases hc : identChar m fuel p false with
  | timeout => exact Local.timeout
  | error message => exact Local.error
  | ok r =>
      obtain ⟨c, next, esc⟩ := r
      refine Local.ite (fun _ => Iff.rfl) (fun _ => Local.error) fun _ => ?_
      exact ((identLoop_local h cfg.tables _ fuel next _ c false).weaken (le_identChar hc)).bind
        fun _ _ => Local.ok le_rfl

/-! ## Punctuators -/

theorem punctuator_zero₀ (c1 c2 c3 : UInt8) : punctuator 0 c1 c2 c3 = none := by
  simp +decide [punctuator]

theorem punctuator_zero₁ (c c2 c3 : UInt8) : punctuator c 0 c2 c3 = none := by
  simp +decide [punctuator]

theorem punctuator_zero₂ (c c1 c3 d3 : UInt8) :
    punctuator c c1 0 c3 = punctuator c c1 0 d3 := by
  simp +decide [punctuator]

/-- A byte after a zero does not count. -/
theorem scanPunctuator_sameTo (h : SameTo m m' q) {p : ℕ} (hp : p ≤ q) :
    scanPunctuator m' p = scanPunctuator m p := by
  rw [scanPunctuator, scanPunctuator, h.read hp]
  by_cases h0 : m p = 0
  · rw [h0, punctuator_zero₀, punctuator_zero₀]
  have hp1 := h.succ_le hp h0
  rw [h.read hp1]
  by_cases h1 : m (p + 1) = 0
  · rw [h1, punctuator_zero₁, punctuator_zero₁]
  have hp2 := h.succ_le hp1 h1
  rw [h.read hp2]
  by_cases h2 : m (p + 2) = 0
  · rw [h2, punctuator_zero₂ _ _ (m' (p + 3)) (m (p + 3))]
  rw [h.read (h.succ_le hp2 h2)]

theorem le_scanPunctuator (m : Mem) (p : ℕ) : p ≤ (scanPunctuator m p).2 := by
  unfold scanPunctuator
  split <;> simp

/-! ## Comments -/

theorem blockComment_local (h : SameTo m m' q) (bufEnd : ℕ) :
    ∀ (fuel p lineNum : ℕ) (gotLf : Bool),
      Local (blockComment m' bufEnd fuel p lineNum gotLf)
        (blockComment m bufEnd fuel p lineNum gotLf) Comment.next p q := by
  intro fuel
  induction fuel with
  | zero => intro p lineNum gotLf; exact Local.timeout
  | succ fuel ih =>
      intro p lineNum gotLf
      refine Local.ite (fun hp => by rw [h.read hp]) (fun _ => Local.error) fun _ => ?_
      refine Local.ite (fun hp => ?_) (fun _ => Local.ok (by simp)) fun _ => ?_
      · rw [h.read hp]
        refine and_congr_right fun hs => ?_
        rw [h.read (h.succ_le hp (by rw [hs]; decide))]
      refine Local.ite (fun hp => by rw [h.read hp])
        (fun _ => (ih (p + 1) _ _).weaken (Nat.le_succ p)) fun _ => ?_
      refine Local.ite (fun hp => by rw [h.read hp])
        (fun _ => (ih (p + 1) _ _).weaken (Nat.le_succ p)) fun _ => ?_
      refine Local.ite (fun hp => by rw [h.read hp]) (fun _ => ?_)
        (fun _ => (ih (p + 1) _ _).weaken (Nat.le_succ p))
      refine Local.congr (fun hp => by rw [unicodeFromUtf8_sameTo h hp]) ?_
      cases hu : unicodeFromUtf8 m p with
      | none => exact ih p _ _
      | some r => exact (ih r.2 _ _).weaken (unicodeFromUtf8_lt hu).le

theorem lineComment_local (h : SameTo m m' q) (bufEnd : ℕ) :
    ∀ (fuel p : ℕ), Local (lineComment m' bufEnd fuel p) (lineComment m bufEnd fuel p) id p q := by
  intro fuel
  induction fuel with
  | zero => intro p; exact Local.timeout
  | succ fuel ih =>
      intro p
      refine Local.ite (fun hp => by rw [h.read hp]) (fun _ => Local.ok le_rfl) fun _ => ?_
      refine Local.ite (fun hp => by rw [h.read hp]) (fun _ => Local.ok le_rfl) fun _ => ?_
      refine Local.ite (fun hp => by rw [h.read hp]) (fun _ => ?_)
        (fun _ => (ih (p + 1)).weaken (Nat.le_succ p))
      refine Local.congr (fun hp => by rw [unicodeFromUtf8_sameTo h hp]) ?_
      cases hu : unicodeFromUtf8 m p with
      | none => exact ih p
      | some r =>
          have hlt := unicodeFromUtf8_lt hu
          exact Local.ite (fun _ => Iff.rfl) (fun _ => Local.ok hlt.le)
            (fun _ => (ih r.2).weaken hlt.le)

theorem shebangLoop_local (h : SameTo m m' q) (bufEnd : ℕ) :
    ∀ (fuel p : ℕ), Local (shebangLoop m' bufEnd fuel p) (shebangLoop m bufEnd fuel p) id p q := by
  intro fuel
  induction fuel with
  | zero => intro p; exact Local.timeout
  | succ fuel ih =>
      intro p
      refine Local.ite (fun _ => Iff.rfl) (fun _ => Local.ok le_rfl) fun _ => ?_
      refine Local.ite (fun hp => by rw [h.read hp]) (fun _ => Local.ok le_rfl) fun _ => ?_
      refine Local.ite (fun hp => by rw [h.read hp]) (fun _ => ?_)
        (fun _ => (ih (p + 1)).weaken (Nat.le_succ p))
      refine Local.congr (fun hp => by rw [unicodeFromUtf8_sameTo h hp]) ?_
      cases hu : unicodeFromUtf8 m p with
      | none => exact ih p
      | some r =>
          have hlt := unicodeFromUtf8_lt hu
          exact Local.ite (fun _ => Iff.rfl) (fun _ => Local.ok hlt.le)
            (fun _ => (ih r.2).weaken hlt.le)

theorem skipShebang_local (h : SameTo m m' q) (bufEnd fuel : ℕ) :
    Local (skipShebang m' bufEnd fuel) (skipShebang m bufEnd fuel) id 0 q := by
  refine Local.ite (fun hp => ?_) (fun _ => ?_) (fun _ => Local.ok le_rfl)
  · rw [h.read hp]
    refine and_congr_right fun hs => ?_
    rw [h.read (h.succ_le hp (by rw [hs]; decide))]
  · exact (shebangLoop_local h bufEnd fuel 2).weaken (by omega)

/-! ## Tokens -/

theorem scanNumber_local (h : SameTo m m' q) (cfg : LexConfig) (fuel p : ℕ) :
    Local (scanNumber cfg m' fuel p) (scanNumber cfg m fuel p) Prod.snd p q := by
  refine (atod_local h fuel p).bind fun r _ => ?_
  exact Local.ite (fun hp => by rw [unicodeFromUtf8_sameTo h hp]) (fun _ => Local.error)
    (fun _ => Local.ok le_rfl)

theorem scanBackslash_local (h : SameTo m m' q) (cfg : LexConfig) (fuel : ℕ) {p : ℕ}
    (h0 : m p ≠ 0) :
    Local (scanBackslash cfg m' fuel p) (scanBackslash cfg m fuel p) Prod.snd p q := by
  have hp1 : p ≤ q → p + 1 ≤ q := fun hp => h.succ_le hp h0
  refine Local.ite (fun hp => by rw [h.read (hp1 hp)]) (fun _ => ?_)
    (fun _ => Local.ok (Nat.le_succ p))
  refine Local.congr (fun hp => by rw [parseEscape_sameTo h fuel (hp1 hp)]) ?_
  cases he : parseEscape m fuel (p + 1) with
  | timeout => exact Local.timeout
  | error message => exact Local.error
  | ok e =>
      cases e with
      | char c next =>
          have hlt := parseEscape_lt he
          exact Local.ite (fun _ => Iff.rfl)
            (fun _ => (scanIdent_local h cfg fuel next c true).weaken (by omega))
            (fun _ => Local.ok (Nat.le_succ p))
      | malformed => exact Local.ok (Nat.le_succ p)
      | none => exact Local.ok (Nat.le_succ p)

theorem scanAscii_local (h : SameTo m m' q) (cfg : LexConfig) (fuel p : ℕ) :
    Local (scanAscii cfg m' fuel p) (scanAscii cfg m fuel p) Prod.snd p q := by
  refine Local.ite (fun hp => by rw [h.read hp])
    (fun hb => scanBackslash_local h cfg fuel (by rw [hb]; decide)) fun _ => ?_
  refine Local.ite (fun hp => by rw [h.read hp]) (fun _ => ?_) fun _ => ?_
  · refine Local.congr (fun hp => by rw [h.read hp]) ?_
    exact (scanIdent_local h cfg fuel (p + 1) _ false).weaken (Nat.le_succ p)
  refine Local.ite (fun hp => by rw [h.read hp])
    (fun _ => (scanPrivateName_local h cfg fuel (p + 1)).weaken (Nat.le_succ p)) fun _ => ?_
  refine Local.ite (fun hp => ?_) (fun _ => scanNumber_local h cfg fuel p) fun _ => ?_
  · rw [h.read hp]
    refine and_congr_right fun hd => ?_
    rw [h.read (h.succ_le hp (by rw [hd]; decide))]
  refine Local.ite (fun hp => ?_) (fun _ => Local.error) fun _ => ?_
  · rw [h.read hp]
    refine and_congr_right fun hd => ?_
    rw [h.read (h.succ_le hp (by rw [hd]; decide))]
  refine Local.ite (fun hp => by rw [h.read hp]) (fun _ => scanNumber_local h cfg fuel p)
    fun _ => ?_
  have heq : p ≤ q → Res.ok (scanPunctuator m' p) = .ok (scanPunctuator m p) := fun hp => by
    rw [scanPunctuator_sameTo h hp]
  exact Local.congr heq (Local.ok (le_scanPunctuator m p))

theorem isHtmlComment_sameTo (h : SameTo m m' q) (cfg : LexConfig) (lastLine : ℕ) {p : ℕ}
    (hp : p ≤ q) (lineNum : ℕ) :
    isHtmlComment cfg m' lastLine p lineNum ↔ isHtmlComment cfg m lastLine p lineNum := by
  rw [isHtmlComment, isHtmlComment, h.read hp]
  refine and_congr_right fun _ => or_congr (and_congr_right fun h0 => ?_)
    (and_congr_right fun h0 => ?_)
  · have hp1 := h.succ_le hp (by rw [h0]; decide)
    rw [h.read hp1]
    refine and_congr_right fun h1 => ?_
    rw [h.read (h.succ_le hp1 (by rw [h1]; decide))]
  · have hp1 := h.succ_le hp (by rw [h0]; decide)
    rw [h.read hp1]
    refine and_congr_right fun h1 => ?_
    have hp2 := h.succ_le hp1 (by rw [h1]; decide)
    rw [h.read hp2]
    refine and_congr_right fun h2 => ?_
    rw [h.read (h.succ_le hp2 (by rw [h2]; decide))]

theorem le_unicodeFromUtf8_getD (m : Mem) (p : ℕ) :
    p ≤ ((unicodeFromUtf8 m p).getD (invalidChar, p)).2 := by
  cases hu : unicodeFromUtf8 m p with
  | none => exact le_rfl
  | some r => exact (unicodeFromUtf8_lt hu).le

theorem scanToken_local (h : SameTo m m' q) (cfg : LexConfig) (bufEnd lastLine : ℕ) :
    ∀ (fuel p lineNum : ℕ) (gotLf : Bool),
      Local (scanToken cfg m' bufEnd lastLine fuel p lineNum gotLf)
        (scanToken cfg m bufEnd lastLine fuel p lineNum gotLf) Scanned.next p q := by
  intro fuel
  induction fuel with
  | zero => intro p lineNum gotLf; exact Local.timeout
  | succ fuel ih =>
      intro p lineNum gotLf
      refine Local.ite (fun hp => by rw [h.read hp]) (fun _ => Local.ok le_rfl) fun h0 => ?_
      have hnext : p ≤ q → m' (p + 1) = m (p + 1) := fun hp => h.read (h.succ_le hp h0)
      -- template, string
      refine Local.ite (fun hp => by rw [h.read hp]) (fun _ => ?_) fun _ => ?_
      · exact ((parseTemplatePart_local h bufEnd fuel (p + 1) lineNum).weaken
          (Nat.le_succ p)).bind fun _ _ => Local.ok le_rfl
      refine Local.ite (fun hp => by rw [h.read hp]) (fun _ => ?_) fun _ => ?_
      · refine Local.congr (fun hp => by rw [h.read hp]) ?_
        exact ((parseString_local h bufEnd cfg.strict (m p) fuel (p + 1) lineNum).weaken
          (Nat.le_succ p)).bind fun _ _ => Local.ok le_rfl
      -- line terminators and spaces
      refine Local.ite (fun hp => by rw [h.read hp]) (fun _ => ?_) fun _ => ?_
      · refine Local.congr (fun hp => by rw [hnext hp]) ((ih _ _ _).weaken ?_)
        split <;> omega
      refine Local.ite (fun hp => by rw [h.read hp])
        (fun _ => (ih (p + 1) _ _).weaken (Nat.le_succ p)) fun _ => ?_
      refine Local.ite (fun hp => by rw [h.read hp])
        (fun _ => (ih (p + 1) _ _).weaken (Nat.le_succ p)) fun _ => ?_
      -- comments
      refine Local.ite (fun hp => by rw [h.read hp, hnext hp]) (fun _ => ?_) fun _ => ?_
      · exact ((blockComment_local h bufEnd fuel (p + 2) lineNum gotLf).weaken (by omega)).bind
          fun r _ => ih r.next r.lineNum r.gotLf
      refine Local.ite (fun hp => by rw [h.read hp, hnext hp]) (fun _ => ?_) fun _ => ?_
      · exact ((lineComment_local h bufEnd fuel (p + 2)).weaken (by omega)).bind
          fun next _ => ih next lineNum gotLf
      refine Local.ite (fun hp => isHtmlComment_sameTo h cfg lastLine hp lineNum) (fun _ => ?_)
        fun _ => ?_
      · exact (lineComment_local h bufEnd fuel p).bind fun next _ => ih next lineNum gotLf
      -- characters from 128 on
      refine Local.ite (fun hp => by rw [h.read hp]) (fun _ => ?_) fun _ => ?_
      · refine Local.congr (fun hp => by rw [unicodeFromUtf8_sameTo h hp]) ?_
        have hle := le_unicodeFromUtf8_getD m p
        refine Local.ite (fun _ => Iff.rfl) (fun _ => (ih _ _ _).weaken hle) fun _ => ?_
        refine Local.ite (fun _ => Iff.rfl) (fun _ => (ih _ _ _).weaken hle) fun _ => ?_
        refine Local.ite (fun _ => Iff.rfl) (fun _ => ?_) (fun _ => Local.error)
        exact ((scanIdent_local h cfg fuel _ _ false).weaken hle).bind fun _ _ => Local.ok le_rfl
      · exact (scanAscii_local h cfg fuel p).bind fun _ _ => Local.ok le_rfl

theorem nextToken_local (h : SameTo m m' q) (cfg : LexConfig) (bufEnd fuel : ℕ) (s : LexState) :
    Local (nextToken cfg m' bufEnd fuel s) (nextToken cfg m bufEnd fuel s) LexState.bufPtr
      s.bufPtr q :=
  (scanToken_local h cfg bufEnd s.token.lineNum fuel s.bufPtr s.lineNum false).bind
    fun _ _ => Local.ok le_rfl

end Local

/-! ## The end of the text -/

theorem scanIdent_ne_eof {cfg : LexConfig} {m : Mem} {fuel p c next : ℕ} {hasEscape : Bool}
    {val : TokenVal} (h : scanIdent cfg m fuel p c hasEscape = .ok (val, next)) :
    val ≠ .eof := by
  obtain ⟨r, -, hr⟩ := Res.bind_eq_ok.mp h
  cases hr
  exact identToken_ne_eof _ _ _

theorem scanNumber_ne_eof {cfg : LexConfig} {m : Mem} {fuel p next : ℕ} {val : TokenVal}
    (h : scanNumber cfg m fuel p = .ok (val, next)) : val ≠ .eof := by
  obtain ⟨r, -, hr⟩ := Res.bind_eq_ok.mp h
  simp only at hr
  split at hr
  · exact absurd hr (by simp)
  · cases hr
    simp

theorem scanBackslash_ne_eof {cfg : LexConfig} {m : Mem} {fuel p next : ℕ} {val : TokenVal}
    (h : scanBackslash cfg m fuel p = .ok (val, next)) : val ≠ .eof := by
  rw [scanBackslash] at h
  split at h
  · obtain ⟨e, -, he⟩ := Res.bind_eq_ok.mp h
    cases e with
    | char c n =>
        simp only at he
        split at he
        · exact scanIdent_ne_eof he
        · cases he
          simp
    | malformed => cases he; simp
    | none => cases he; simp
  · cases h
    simp

theorem scanPunctuator_ne_eof (m : Mem) (p : ℕ) : (scanPunctuator m p).1 ≠ .eof := by
  unfold scanPunctuator
  split <;> simp

theorem scanAscii_ne_eof {cfg : LexConfig} {m : Mem} {fuel p next : ℕ} {val : TokenVal}
    (h : scanAscii cfg m fuel p = .ok (val, next)) : val ≠ .eof := by
  simp only [scanAscii] at h
  split at h
  · exact scanBackslash_ne_eof h
  split at h
  · exact scanIdent_ne_eof h
  split at h
  · obtain ⟨r, -, hr⟩ := Res.bind_eq_ok.mp h
    simp only at hr
    split at hr
    · exact absurd hr (by simp)
    · obtain ⟨r', -, hr'⟩ := Res.bind_eq_ok.mp hr
      cases hr'
      simp
  split at h
  · exact scanNumber_ne_eof h
  split at h
  · exact absurd h (by simp)
  split at h
  · exact scanNumber_ne_eof h
  · rw [Res.ok.injEq] at h
    have hne := scanPunctuator_ne_eof m p
    rwa [h] at hne

/-- `TOK_EOF` is returned for a zero byte, which is not passed. -/
theorem scanToken_eof (cfg : LexConfig) (m : Mem) (bufEnd lastLine : ℕ) :
    ∀ (fuel p lineNum : ℕ) (gotLf : Bool) (r : Scanned),
      scanToken cfg m bufEnd lastLine fuel p lineNum gotLf = .ok r → r.val = .eof →
        m r.ptr = 0 ∧ r.next = r.ptr := by
  intro fuel
  induction fuel with
  | zero => intro p lineNum gotLf r h _; exact absurd h nofun
  | succ fuel ih =>
      intro p lineNum gotLf r h heof
      rw [scanToken] at h
      by_cases h0 : m p = 0
      · rw [if_pos h0] at h
        cases h
        exact ⟨h0, rfl⟩
      rw [if_neg h0] at h
      by_cases h1 : m p = ch '\x60'
      · rw [if_pos h1] at h
        obtain ⟨t, -, ht⟩ := Res.bind_eq_ok.mp h
        cases ht
        exact absurd heof (by simp)
      rw [if_neg h1] at h
      by_cases h2 : m p = ch '\'' ∨ m p = ch '"'
      · rw [if_pos h2] at h
        obtain ⟨t, -, ht⟩ := Res.bind_eq_ok.mp h
        cases ht
        exact absurd heof (by simp)
      rw [if_neg h2] at h
      by_cases h3 : m p = ch '\r'
      · rw [if_pos h3] at h
        exact ih _ _ _ _ h heof
      rw [if_neg h3] at h
      by_cases h4 : m p = ch '\n'
      · rw [if_pos h4] at h
        exact ih _ _ _ _ h heof
      rw [if_neg h4] at h
      by_cases h5 : m p = ch '\x0c' ∨ m p = ch '\x0b' ∨ m p = ch ' ' ∨ m p = ch '\t'
      · rw [if_pos h5] at h
        exact ih _ _ _ _ h heof
      rw [if_neg h5] at h
      by_cases h6 : m p = ch '/' ∧ m (p + 1) = ch '*'
      · rw [if_pos h6] at h
        obtain ⟨t, -, ht⟩ := Res.bind_eq_ok.mp h
        exact ih _ _ _ _ ht heof
      rw [if_neg h6] at h
      by_cases h7 : m p = ch '/' ∧ m (p + 1) = ch '/'
      · rw [if_pos h7] at h
        obtain ⟨t, -, ht⟩ := Res.bind_eq_ok.mp h
        exact ih _ _ _ _ ht heof
      rw [if_neg h7] at h
      by_cases h8 : isHtmlComment cfg m lastLine p lineNum
      · rw [if_pos h8] at h
        obtain ⟨t, -, ht⟩ := Res.bind_eq_ok.mp h
        exact ih _ _ _ _ ht heof
      rw [if_neg h8] at h
      by_cases h9 : 0x80 ≤ m p
      · rw [if_pos h9] at h
        simp only at h
        split at h
        · exact ih _ _ _ _ h heof
        split at h
        · exact ih _ _ _ _ h heof
        split at h
        · obtain ⟨t, ht, hr⟩ := Res.bind_eq_ok.mp h
          cases hr
          exact absurd heof (scanIdent_ne_eof ht)
        · exact absurd h (by simp)
      · rw [if_neg h9] at h
        obtain ⟨t, ht, hr⟩ := Res.bind_eq_ok.mp h
        cases hr
        exact absurd heof (scanAscii_ne_eof ht)

theorem nextToken_eof {cfg : LexConfig} {m : Mem} {bufEnd fuel : ℕ} {s s' : LexState}
    (h : nextToken cfg m bufEnd fuel s = .ok s') (heof : s'.token.val = .eof) :
    m s'.token.ptr = 0 ∧ s'.bufPtr = s'.token.ptr := by
  obtain ⟨r, hr, hs⟩ := Res.bind_eq_ok.mp h
  cases hs
  exact scanToken_eof cfg m bufEnd _ fuel _ _ _ r hr heof

/-- The address of the last token. -/
def eofPtr (ts : List Token) : ℕ := (ts.getLast?.map Token.ptr).getD 0

theorem eofPtr_cons (t : Token) {ts : List Token} (h : ts ≠ []) : eofPtr (t :: ts) = eofPtr ts := by
  rw [eofPtr, eofPtr, List.getLast?_cons_of_ne_nil h]

/-- A complete run ends with `TOK_EOF`, at a zero byte. -/
theorem tokensFrom_eof {cfg : LexConfig} {m : Mem} {bufEnd fuel : ℕ} :
    ∀ {n : ℕ} {s : LexState} {ts : List Token}, tokensFrom cfg m bufEnd fuel n s = .ok ts →
      ts ≠ [] ∧ m (eofPtr ts) = 0 := by
  intro n
  induction n with
  | zero => intro s ts h; exact absurd h nofun
  | succ n ih =>
      intro s ts h
      obtain ⟨s', hs', h⟩ := Res.bind_eq_ok.mp h
      by_cases heof : s'.token.val = .eof
      · rw [if_pos heof] at h
        cases h
        exact ⟨by simp, (nextToken_eof hs' heof).1⟩
      · rw [if_neg heof] at h
        obtain ⟨ts', hts', h⟩ := Res.bind_eq_ok.mp h
        cases h
        obtain ⟨hne, hz⟩ := ih hts'
        exact ⟨by simp, by rw [eofPtr_cons _ hne]; exact hz⟩

theorem tokensFrom_local {m m' : Mem} {q : ℕ} (h : SameTo m m' q) (cfg : LexConfig)
    (bufEnd fuel : ℕ) :
    ∀ (n : ℕ) (s : LexState), Local (tokensFrom cfg m' bufEnd fuel n s)
      (tokensFrom cfg m bufEnd fuel n s) eofPtr s.bufPtr q := by
  intro n
  induction n with
  | zero => intro s; exact Local.timeout
  | succ n ih =>
      intro s
      refine (nextToken_local h cfg bufEnd fuel s).bind fun s' hs' => ?_
      refine Local.ite (fun _ => Iff.rfl) (fun heof => Local.ok ?_) fun _ => ?_
      · exact (nextToken_eof hs' heof).2.le
      · refine (ih s').bind fun ts hts => Local.ok ?_
        rw [eofPtr_cons _ (tokensFrom_eof hts).1]

/-- **The run ends at a zero byte.** -/
theorem tokens_eof {cfg : LexConfig} {m : Mem} {bufEnd fuel : ℕ} {ts : List Token}
    (h : tokens cfg m bufEnd fuel = .ok ts) : m (eofPtr ts) = 0 := by
  obtain ⟨p, -, hp⟩ := Res.bind_eq_ok.mp h
  exact (tokensFrom_eof hp).2

/-- **The run depends on nothing after that byte.** -/
theorem tokens_same {cfg : LexConfig} {m m' : Mem} {bufEnd fuel : ℕ} {ts : List Token}
    (h : tokens cfg m bufEnd fuel = .ok ts) (hagree : ∀ i ≤ eofPtr ts, m' i = m i) :
    tokens cfg m' bufEnd fuel = .ok ts := by
  have hsame : SameTo m m' (eofPtr ts) := ⟨hagree, tokens_eof h⟩
  have hlocal : Local (tokens cfg m' bufEnd fuel) (tokens cfg m bufEnd fuel) eofPtr 0
      (eofPtr ts) :=
    (skipShebang_local hsame bufEnd fuel).bind fun p _ =>
      tokensFrom_local hsame cfg bufEnd fuel fuel (LexState.init p)
  exact hlocal.same (Nat.zero_le _) ts h le_rfl

end Engine
end FuzzerJs

import Concordance.Proofs.Query.Rendering
/-!
Tokens and the texts that are read as tokens (`tokens_exact`).

1. A token that is well formed has a text of its own (`Token.render`), and the texts of any such
   tokens, one behind the other with separators between them, are read as these tokens
   (`spells_spaced`). What a phrase holds is kept from its neighbours by its quotes, and all other
   tokens by the separators, in which no run of query characters goes on (`closed_spaced`).
2. Whatever the cursor reads is well formed, in any text (`Cursor.wellFormed_of_next`), also where
   a quote is left open.
-/
namespace Concordance.Query

/-- The token can be written. A word is a run of query characters that is no keyword, and a phrase
is any text without a quote. -/
def Token.WellFormed : Token → Prop
  | .word text =>
    text ≠ "" ∧ (∀ c ∈ text.toList, isQueryChar c = true) ∧ text ∉ ["AND", "OR", "NOT"]
  | .phrase text => '"' ∉ text.toList
  | .within _ | .and | .or | .not | .leftParen | .rightParen => True

instance : DecidablePred Token.WellFormed
  | .word text =>
    have h : (text ≠ "" ∧ text.toList.all isQueryChar = true ∧ text ∉ ["AND", "OR", "NOT"]) ↔
        Token.WellFormed (.word text) := by rw [List.all_eq_true]; rfl
    decidable_of_decidable_of_iff h
  | .phrase text => inferInstanceAs (Decidable ('"' ∉ text.toList))
  | .within _ | .and | .or | .not | .leftParen | .rightParen => isTrue trivial

def Token.render : Token → String
  | .word text => text
  | .phrase text => "\"" ++ text ++ "\""
  | .within distance => "/" ++ toString distance
  | .and => "AND"
  | .or => "OR"
  | .not => "NOT"
  | .leftParen => "("
  | .rightParen => ")"

/-- A text of blanks and of other characters with which no token begins. -/
def IsSeparator (text : String) : Prop :=
  ∀ c ∈ text.toList, isBlank c = true ∨ startsToken c = false

instance (text : String) : Decidable (IsSeparator text) :=
  List.decidableBAll (fun c => isBlank c = true ∨ startsToken c = false) text.toList

/-- The texts of tokens, each behind its separator, and a last separator behind them. -/
def spaced (last : String) : List (String × Token) → String
  | [] => last
  | (separator, token) :: rest => separator ++ (token.render ++ spaced last rest)

/-! ## Writing -/

theorem IsSeparator.startsToken {text : String} (h : IsSeparator text) :
    ∀ c ∈ text.toList, startsToken c = false := by
  intro c hc
  obtain hblank | hstart := h c hc
  · exact startsToken_of_isBlank hblank
  · exact hstart

theorem Spells.behind {separator text : List Char} {ts : List Token} (hs : Spells text ts)
    (h : ∀ c ∈ separator, startsToken c = false) : Spells (separator ++ text) ts := by
  induction separator with
  | nil => exact hs
  | cons c separator ih =>
    obtain ⟨hc, hseparator⟩ := List.forall_mem_cons.mp h
    exact .separator hc (ih hseparator)

theorem closed_of_startsToken {text : List Char} (h : ∀ c ∈ text.head?, startsToken c = false) :
    Closed text := by
  intro c hc
  have hstart := h c hc
  simp only [startsToken, Bool.or_eq_false_iff] at hstart
  exact hstart.2

theorem Token.WellFormed.writes {token : Token} (h : token.WellFormed) :
    Writes token.render [token] := by
  cases token with
  | word text =>
    obtain ⟨hne, hrun, hkeyword⟩ := h
    have hwrites := Writes.run (by simpa using hne) hrun
    rwa [Token.ofRun_of_not_keyword hkeyword] at hwrites
  | phrase text => exact Writes.quoted h
  | within distance => exact Writes.within distance
  | and => exact Writes.and
  | or => exact Writes.or
  | not => exact Writes.not
  | leftParen => exact fun _ _ _ hafter => .leftParen hafter
  | rightParen => exact fun _ _ _ hafter => .rightParen hafter

section
variable {pairs : List (String × Token)} {last : String}

/-- Where a separator comes first, no run goes on. -/
theorem closed_spaced (hpairs : ∀ p ∈ pairs, IsSeparator p.1) (hgap : ∀ p ∈ pairs.head?, p.1 ≠ "")
    (hlast : IsSeparator last) : Closed (spaced last pairs).toList := by
  apply closed_of_startsToken
  cases pairs with
  | nil =>
    intro c hc
    exact hlast.startsToken c (List.mem_of_mem_head? hc)
  | cons p rest =>
    obtain ⟨separator, token⟩ := p
    have hne : separator ≠ "" := hgap _ rfl
    have hseparator : IsSeparator separator := hpairs _ List.mem_cons_self
    obtain ⟨c, cs, hcs⟩ := List.exists_cons_of_ne_nil (by simpa using hne : separator.toList ≠ [])
    intro d hd
    rw [spaced, String.toList_append, hcs, List.cons_append, List.head?_cons] at hd
    obtain rfl := Option.some.inj hd
    exact hseparator.startsToken c (hcs ▸ List.mem_cons_self)

theorem spells_spaced (hpairs : ∀ p ∈ pairs, IsSeparator p.1 ∧ p.2.WellFormed)
    (hgaps : ∀ p ∈ pairs.tail, p.1 ≠ "") (hlast : IsSeparator last) :
    Spells (spaced last pairs).toList (pairs.map (·.2)) := by
  induction pairs with
  | nil =>
    have hspells := Spells.nil.behind hlast.startsToken
    rwa [List.append_nil] at hspells
  | cons p rest ih =>
    obtain ⟨separator, token⟩ := p
    obtain ⟨⟨hseparator, htoken⟩, hrest⟩ := List.forall_mem_cons.mp hpairs
    have hinner : Spells (spaced last rest).toList (rest.map (·.2)) :=
      ih hrest fun p hp => hgaps p (List.mem_of_mem_tail hp)
    have hclosed : Closed (spaced last rest).toList :=
      closed_spaced (fun p hp => (hrest p hp).1)
        (fun p hp => hgaps p (List.mem_of_mem_head? hp)) hlast
    have hspells := (htoken.writes _ _ hclosed hinner).behind hseparator.startsToken
    simpa [spaced, String.toList_append] using hspells

end

/-! ## Reading -/

theorem Token.wellFormed_ofRun {text : String} (hne : text ≠ "")
    (hrun : ∀ c ∈ text.toList, isQueryChar c = true) : (Token.ofRun text).WellFormed := by
  by_cases hkeyword : text ∈ ["AND", "OR", "NOT"]
  · simp only [List.mem_cons, List.not_mem_nil, or_false] at hkeyword
    obtain rfl | rfl | rfl := hkeyword
    · trivial
    · trivial
    · trivial
  · rw [Token.ofRun_of_not_keyword hkeyword]
    exact ⟨hne, hrun, hkeyword⟩

namespace Cursor
variable {c after : Cursor} {token : Token}

theorem wellFormed_of_distance {position : Nat} {digits : List Char}
    (h : (distance position digits).map some = .ok (some token)) : token.WellFormed := by
  cases hd : distance position digits with
  | error e =>
    rw [hd] at h
    cases h
  | ok found =>
    obtain ⟨-, -, rfl⟩ := distance_eq_ok hd
    rw [hd] at h
    cases h
    trivial

/-- Where a token can begin, what is read is well formed. -/
theorem wellFormed_of_read (h : c.read = (.ok (some token), after))
    (hstart : ∀ first ∈ c.rest.head?, startsToken first = true) : token.WellFormed := by
  unfold read at h
  split at h
  · cases h
  next first rest hrest =>
  have hfirst : startsToken first = true := hstart first (by rw [hrest]; rfl)
  split at h
  · cases h
    trivial
  next hleft =>
  split at h
  · cases h
    trivial
  next hright =>
  split at h
  · cases h
    intro hquote
    rw [String.toList_ofList] at hquote
    have hne := List.all_eq_true.mp List.all_takeWhile _ hquote
    exact absurd hne (by decide)
  next hquote =>
  split at h
  · exact wellFormed_of_distance (Prod.mk.inj h).1
  next hslash =>
  -- what is left are the characters of runs
  have hquery : isQueryChar first = true := by
    simpa [startsToken, hleft, hright, hquote, hslash] using hfirst
  cases h
  apply Token.wellFormed_ofRun
  · simp [hquery]
  · rw [String.toList_ofList]
    exact List.all_eq_true.mp List.all_takeWhile

theorem wellFormed_of_next (h : c.next = (.ok (some token), after)) : token.WellFormed := by
  refine wellFormed_of_read h ?_
  intro first hfirst
  cases hrest : c.seek.rest with
  | nil =>
    rw [hrest] at hfirst
    cases hfirst
  | cons d rest =>
    rw [hrest] at hfirst
    obtain rfl := Option.some.inj hfirst
    exact startsToken_of_seek hrest

/-- The recursion is that of the cursor, one token at a time. -/
theorem wellFormed_of_tokens {c : Cursor} {ts : List Token} (h : c.tokens = .ok ts) :
    ∀ token ∈ ts, token.WellFormed := by
  fun_induction Cursor.tokens c generalizing ts with
  | case1 c e after hnext => cases h
  | case2 c after hnext =>
    cases h
    exact List.forall_mem_nil _
  | case3 c first after hnext _ ih =>
    cases hrest : after.tokens with
    | error e =>
      rw [hrest] at h
      cases h
    | ok others =>
      rw [hrest] at h
      cases h
      exact List.forall_mem_cons.mpr ⟨wellFormed_of_next hnext, ih hrest⟩

end Cursor

/-- Well-formed tokens are read from their texts, whatever separates them, as long as there is
something between any two. Conversely, every token that is read from any text is well formed. -/
theorem tokens_exact :
    (∀ (pairs : List (String × Token)) (last : String),
      (∀ p ∈ pairs, IsSeparator p.1 ∧ p.2.WellFormed) → (∀ p ∈ pairs.tail, p.1 ≠ "") →
      IsSeparator last → tokens (spaced last pairs) = .ok (pairs.map (·.2))) ∧
    ∀ (query : String) (ts : List Token), tokens query = .ok ts →
      ∀ token ∈ ts, token.WellFormed := by
  constructor
  · intro pairs last hpairs hgaps hlast
    exact (spells_spaced hpairs hgaps hlast).tokens_eq 0
  · intro query ts h
    exact Cursor.wellFormed_of_tokens h

/-- Separators of blanks and of punctuation, and none in front. The phrase holds operators, a `/k`
and an open parenthesis, and the distance is the largest. -/
def crowded : List (String × Token) :=
  [("", .not), ("\t", .leftParen), ("-", .word "and"), (" . ", .within 4294967295),
    ("…\u00a0", .word "2é"), ("\n", .or), ("+", .phrase "NOT /7 (x  AND"), (",", .rightParen),
    ("!", .rightParen)]

theorem tokens_exact_crowded :
    (∀ p ∈ crowded, IsSeparator p.1 ∧ p.2.WellFormed) ∧ (∀ p ∈ crowded.tail, p.1 ≠ "") ∧
    IsSeparator "?" ∧
    tokens "NOT\t(-and . /4294967295…\u00a02é\nOR+\"NOT /7 (x  AND\",)!)?" =
      .ok (crowded.map (·.2)) ∧
    ∀ token ∈ crowded.map (·.2), token.WellFormed := by
  have hpairs : ∀ p ∈ crowded, IsSeparator p.1 ∧ p.2.WellFormed := by decide +kernel
  have hgaps : ∀ p ∈ crowded.tail, p.1 ≠ "" := by decide
  have hlast : IsSeparator "?" := by decide +kernel
  obtain ⟨hread, hformed⟩ := tokens_exact
  have htokens := hread crowded "?" hpairs hgaps hlast
  exact ⟨hpairs, hgaps, hlast, htokens, hformed _ _ htokens⟩

end Concordance.Query

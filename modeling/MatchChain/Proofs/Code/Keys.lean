import MatchChain.Code.Test
import MatchChain.Proofs.Syntax.RoundTrip
import MatchChain.Proofs.Syntax.Total

/-!
# Keys that are read back

A key of generated code is written bare if it is an identifier name, and quoted otherwise. Identifier
names are taken from all of Unicode, but the lexer knows words of ASCII characters only. So a bare key
is read as the word that it is, and its access or record as what was printed, exactly if its characters
are all ASCII.
-/

set_option autoImplicit false

namespace MatchChain

open Text

/-- All characters of a text are below 128. -/
def Text.IsAscii (s : String) : Prop := ∀ c ∈ s.toList, c.toNat < 128

/-- In ASCII, the lexer and identifier names agree on letters and digits. -/
theorem isWordStart_of_ascii {c : Char} (h : c.toNat < 128) :
    isWordStart c = (isAlphabetic c || c == '_' || c == '$') ∧
      isWordPart c = (isAlphanumeric c || c == '_' || c == '$') := by
  have hall : ∀ n < 128, let c := Char.ofNat n
      isWordStart c = (isAlphabetic c || c == '_' || c == '$') ∧
        isWordPart c = (isAlphanumeric c || c == '_' || c == '$') := by decide +kernel
  simpa using hall c.toNat h

/-- Words are made of ASCII characters. -/
theorem toNat_lt_of_isWordPart {c : Char} (h : isWordPart c = true) : c.toNat < 128 := by
  have hranges : (((decide (65 ≤ c.val ∧ c.val ≤ 90) || (decide (97 ≤ c.val) && decide (c.val ≤ 122))) ||
      (decide (48 ≤ c.val) && decide (c.val ≤ 57))) || c == '_' || c == '$') = true := h
  have hcases : (65 ≤ c.toNat ∧ c.toNat ≤ 90 ∨ 97 ≤ c.toNat ∧ c.toNat ≤ 122) ∨ 48 ≤ c.toNat ∧ c.toNat ≤ 57 ∨
      c = '_' ∨ c = '$' := by
    simpa [UInt32.le_iff_toNat_le, or_assoc] using hranges
  rcases hcases with h | h | rfl | rfl
  · omega
  · omega
  · decide
  · decide

/-- The words of the lexer are the identifier names in ASCII. -/
theorem isWord_iff {w : String} : IsWord w ↔ isIdentifierName w = true ∧ IsAscii w := by
  unfold IsWord isIdentifierName IsAscii
  cases hw : w.toList with
  | nil => simp
  | cons c cs =>
    simp only [List.cons.injEq, Bool.and_eq_true, List.all_eq_true, List.forall_mem_cons]
    constructor
    · rintro ⟨_, _, ⟨rfl, rfl⟩, hc, hcs⟩
      have hascii := toNat_lt_of_isWordPart (isWordPart_of_isWordStart hc)
      have hasciis := fun d hd => toNat_lt_of_isWordPart (hcs d hd)
      refine ⟨⟨(isWordStart_of_ascii hascii).1.symm.trans hc, fun d hd => ?_⟩, hascii, hasciis⟩
      exact (isWordStart_of_ascii (hasciis d hd)).2.symm.trans (hcs d hd)
    · rintro ⟨⟨hstart, hparts⟩, hascii, hasciis⟩
      refine ⟨c, cs, ⟨rfl, rfl⟩, (isWordStart_of_ascii hascii).1.trans hstart, fun d hd => ?_⟩
      exact (isWordStart_of_ascii (hasciis d hd)).2.trans (hparts d hd)

namespace Token

/-- A text alone is read as one name or keyword that is spelled like it. -/
def ReadsAsWord (text : String) : Prop :=
  ∃ word eof : Token, lex text = .ok #[word, eof] ∧ eof.kind = .eof ∧
    (word.kind = .ident text ∨ ∃ k : Keyword, word.kind = .keyword k ∧ k.text = text)

/-- A key is read as one word if and only if it is an identifier name in ASCII. -/
theorem readsAsWord_iff {text : String} : ReadsAsWord text ↔ isIdentifierName text = true ∧ IsAscii text := by
  rw [← isWord_iff]
  constructor
  · rintro ⟨word, eof, hlex, -, hkind | ⟨k, -, rfl⟩⟩
    · obtain ⟨-, hlaid⟩ := laid_of_lexAt (L := .blind) hlex trivial
      exact ((hlaid.placed (i := 0) hlaid.length_pos).named text hkind).word
    · exact k.isWord_text
  · intro hword
    obtain ⟨tokens, hlex, hkinds, -⟩ := lex_of_spells (.word hword) EndsWord.none
    obtain ⟨word, rest, hrest, hword, htail⟩ := List.map_eq_cons_iff.mp hkinds
    obtain ⟨eof, rfl, heof⟩ := List.map_eq_singleton_iff.mp htail
    have htokens : tokens = #[word, eof] := Array.toList_inj.mp hrest
    exact ⟨word, eof, htokens ▸ hlex, heof, hword ▸ (Parser.wordKind_cases text).symm⟩

/-- The letter é alone is an identifier name, but no token. -/
theorem lex_accentedLetter : isIdentifierName "é" = true ∧
    lex "é" = .error (.unexpectedCharacter ⟨0, 2⟩ 'é') := by
  have htext : "é".toList = ['é'] := rfl
  refine ⟨by decide +kernel, ?_⟩
  rw [lex, lexAt, htext, lexFrom]
  rfl

end Token

/-! ## Accesses and records

What is read back has been read, and what has been read has words for its names. -/

variable {k : String}

/-- An access to a field is read back if and only if its key is quoted or ASCII. -/
theorem AccessStyle.parse_print_field_iff {target : Expr} (h : target.Written) (style : AccessStyle) (k : String) :
    (∃ e, Expr.parse (style.field target k).print = .ok e ∧ e.bare = (style.field target k).bare) ↔
      (isIdentifierName k = true → IsAscii k) := by
  unfold field
  split
  · rename_i hname
    rw [forall_prop_of_true hname]
    constructor
    · rintro ⟨e, hparse, hbare⟩
      have hspelled := (Expr.all_good_of_parse (L := .blind) trivial hparse).here.spelled
      cases e with
      | member span object name optional =>
        obtain ⟨-, -, rfl, -⟩ := Expr.member.inj hbare
        exact (isWord_iff.mp hspelled).2
      | _ => cases hbare
    · exact fun hascii => Expr.Written.parse_print ⟨h, isWord_iff.mpr ⟨hname, hascii⟩⟩
  · rename_i hname
    exact iff_of_true (Expr.Written.parse_print ⟨h, trivial⟩) fun hk => absurd hk hname

namespace Capture

variable {span : Span} {captures : List Capture}

/-- The entry of a record for a component that has a name. -/
def entryOf (span : Span) (c : Capture) : Option Property :=
  c.name.map fun name => .init span (.named name) c.value false

theorem entries_written (hvalues : ∀ c ∈ captures, c.value.Written)
    (hkeys : ∀ c ∈ captures, ∀ k, c.name = some k → isIdentifierName k = true → IsAscii k) :
    Written.props (captures.filterMap (entryOf span)) := by
  induction captures with
  | nil => trivial
  | cons c captures ih =>
    obtain ⟨name, value⟩ := c
    rw [List.forall_mem_cons] at hvalues hkeys
    have hrest := ih hvalues.2 hkeys.2
    cases name with
    | none => exact hrest
    | some k =>
      have hkey : Written.propKey (.named k) := by
        unfold PropKey.named
        split
        · rename_i hname
          exact isWord_iff.mpr ⟨hname, hkeys.1 k rfl hname⟩
        · trivial
      exact ⟨⟨hkey, hvalues.1, by rintro ⟨⟩⟩, hrest⟩

/-- A bare key of a record that has been read is a word. -/
theorem isWord_of_parse {source : String} {e : Expr} (hparse : Expr.parse source = .ok e)
    (hbare : e.bare = (Expr.object span (captures.filterMap (entryOf span))).bare) {c : Capture} (hc : c ∈ captures)
    (hname : c.name = some k) (hk : isIdentifierName k = true) : IsWord k := by
  have hgood := Expr.all_good_of_parse (L := .blind) trivial hparse
  cases e with
  | object span' ps =>
    have hprops := (Expr.object.inj hbare).2
    rw [Bare.props_eq_map, Bare.props_eq_map] at hprops
    have hentry : Property.init span (.ident k) c.value false ∈ captures.filterMap (entryOf span) :=
      List.mem_filterMap.mpr ⟨c, hc, by rw [entryOf, hname, Option.map_some, PropKey.named, if_pos hk]⟩
    obtain ⟨p, hp, heq⟩ := List.mem_map.mp (hprops ▸ List.mem_map_of_mem hentry)
    have hspelled := (hgood.children (.property p) (List.mem_map_of_mem hp)).here.spelled
    cases p with
    | init _ key _ _ =>
      have hkey := (Property.init.inj heq).2.1
      cases key <;> cases hkey
      exact hspelled.1 k rfl
    | spread => cases heq
  | _ => cases hbare

/-- What a handler is given is read back if and only if its keys are quoted or ASCII. -/
theorem parse_print_value_iff {e : Expr} (he : value? span captures = some e)
    (hvalues : ∀ c ∈ captures, c.value.Written) :
    (∃ e', Expr.parse e.print = .ok e' ∧ e'.bare = e.bare) ↔
      ∀ c ∈ captures, ∀ k, c.name = some k → isIdentifierName k = true → IsAscii k := by
  unfold value? at he
  split at he <;> cases he
  · exact iff_of_true (Expr.Written.parse_print (hvalues _ List.mem_cons_self)) (by simp)
  · constructor
    · rintro ⟨e', hparse, hbare⟩ c hc k hname hk
      exact (isWord_iff.mp (isWord_of_parse hparse hbare hc hname hk)).2
    · exact fun hkeys => Expr.Written.parse_print (entries_written hvalues hkeys)

end Capture

end MatchChain

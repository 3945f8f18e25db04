import LiquidTemplate.Proofs.Nesting.Derivation
import LiquidTemplate.Proofs.Lexeme.Construct

/-!
# The templates that are accepted

A derivation of the symbols of a template and one of its tokens are the same: each symbol says of
its token just what a rule of `Nesting.SequenceTree` asks of it. So a template is accepted if and
only if its symbols are a word of the nesting language.
-/

namespace LiquidTemplate

namespace Lexeme

variable {l : Lexeme}

theorem symbol_eq_opening_iff {key : Key} :
    l.symbol = .opening key ↔
      ∃ head, l = startTag head ∧ head.opens = true ∧ head.name.key = key := by
  cases l with
  | startTag head => by_cases ho : head.opens = true <;> simp [symbol, ho]
  | tag inner => simp only [symbol]; split <;> simp
  | _ => simp [symbol]

theorem symbol_eq_closing_iff {key : Key} :
    l.symbol = .closing key ↔ ∃ name gap, l = endTag name gap ∧ name.key = key := by
  cases l with
  | startTag head => simp only [symbol]; split <;> simp
  | tag inner => simp only [symbol]; split <;> simp
  | endTag name gap => simp [symbol]
  | _ => simp [symbol]

theorem symbol_eq_block_iff {name : Text} :
    l.symbol = .block name ↔
      ∃ inner, l = tag inner ∧ Keyword.roleOf (Tag.ofInner inner).name = .opensBlock ∧
        (Tag.ofInner inner).name = name := by
  cases l with
  | startTag head => simp only [symbol]; split <;> simp
  | tag inner => simp only [symbol]; split <;> simp [*]
  | _ => simp [symbol]

theorem symbol_eq_branch_iff {name : Text} :
    l.symbol = .branch name ↔
      ∃ inner, l = tag inner ∧ Keyword.roleOf (Tag.ofInner inner).name = .startsBranch ∧
        (Tag.ofInner inner).name = name := by
  cases l with
  | startTag head => simp only [symbol]; split <;> simp
  | tag inner => simp only [symbol]; split <;> simp [*]
  | _ => simp [symbol]

theorem symbol_eq_blockEnd_iff {name : Text} :
    l.symbol = .blockEnd name ↔
      ∃ inner, l = tag inner ∧ Keyword.roleOf (Tag.ofInner inner).name = .closes name := by
  cases l with
  | startTag head => simp only [symbol]; split <;> simp
  | tag inner => simp only [symbol]; split <;> simp [*]
  | _ => simp [symbol]

theorem symbol_eq_invalid_iff : l.symbol = .invalid ↔ l.isInvalid = true := by
  cases l with
  | startTag head => simp only [symbol]; split <;> simp [isInvalid]
  | tag inner => simp only [symbol]; split <;> simp [isInvalid]
  | _ => simp [symbol, isInvalid]

end Lexeme

/-- A token that has a node, or blank text, is a leaf, and there are no other leaves. -/
theorem Token.symbol_eq_leaf_iff {t : Token} :
    t.item.symbol = .leaf ↔
      (∃ value, t.item = .text value ∧ Text.AllBlank value) ∨ ∃ n, t.leafNode? = some n := by
  obtain ⟨start, item⟩ := t
  cases item with
  | text value =>
    simp only [Lexeme.symbol, Token.leafNode?, true_iff, Lexeme.text.injEq, exists_eq_left']
    cases h : Node.ofText? start value with
    | none => exact .inl (Node.ofText?_eq_none_iff.1 h)
    | some n => exact .inr ⟨n, rfl⟩
  | tag inner =>
    simp only [Lexeme.symbol, Token.leafNode?]
    split <;> simp [*]
  | startTag head =>
    simp only [Lexeme.symbol, Token.leafNode?, Head.opens]
    rcases Option.eq_none_or_eq_some head.voidName? with hv | ⟨name, hv⟩
    · by_cases hc : head.selfClosing = true <;> simp [hv, hc]
    · simp [hv]
  | _ => simp [Lexeme.symbol, Token.leafNode?]

namespace Nesting

/-- The symbols of tokens. -/
def symbols (ts : List Token) : List Symbol := ts.map fun t => t.item.symbol

@[simp] theorem symbols_nil : symbols [] = [] := rfl

@[simp] theorem symbols_cons (t : Token) (ts : List Token) :
    symbols (t :: ts) = t.item.symbol :: symbols ts := rfl

@[simp] theorem symbols_append (ts us : List Token) :
    symbols (ts ++ us) = symbols ts ++ symbols us := List.map_append

mutual

theorem SequenceTree.symbols : ∀ {ts : List Token} {ns : List Node}, SequenceTree ts ns →
    Sequence (symbols ts)
  | _, _, .empty => .empty
  | _, _, .cons hi ht => by
    rw [symbols_append]
    exact .cons hi.symbols ht.symbols

theorem ItemTree.symbols : ∀ {ts : List Token} {ns : List Node}, ItemTree ts ns → Item (symbols ts)
  | _, _, .blank ht hv => by
    rw [symbols_cons, Token.symbol_eq_leaf_iff.2 (.inl ⟨_, ht, hv⟩)]
    exact .leaf
  | _, _, .leaf hn => by
    rw [symbols_cons, Token.symbol_eq_leaf_iff.2 (.inr ⟨_, hn⟩)]
    exact .leaf
  | _, _, .element ht ho hts ht' hk => by
    simp only [List.cons_append, symbols_cons, symbols_append, symbols_nil,
      Lexeme.symbol_eq_opening_iff.2 ⟨_, ht, ho, hk⟩,
      Lexeme.symbol_eq_closing_iff.2 ⟨_, _, ht', rfl⟩]
    exact .element hts.symbols
  | _, _, .block ht hr hts ht' hr' => by
    obtain ⟨w, v, h, hw, hv⟩ := hts.symbols
    simp only [List.cons_append, symbols_cons, symbols_append, symbols_nil, h,
      Lexeme.symbol_eq_block_iff.2 ⟨_, ht, hr, rfl⟩,
      Lexeme.symbol_eq_blockEnd_iff.2 ⟨_, ht', hr'⟩]
    exact .block hw hv

theorem BranchTrees.symbols : ∀ {name : Text} {label : Option Tag} {start stop : Nat}
    {ts : List Token} {branches : List Branch}, BranchTrees name label start ts stop branches →
    ∃ w v, symbols ts = w ++ v ∧ Sequence w ∧ Branches name v
  | _, _, _, _, _, _, .last hts => ⟨_, [], (List.append_nil _).symm, hts.symbols, .none⟩
  | _, _, _, _, _, _, .more hts ht hb hbs => by
    obtain ⟨w, v, h, hw, hv⟩ := hbs.symbols
    refine ⟨_, _, ?_, hts.symbols, .more hb hw hv⟩
    rw [symbols_append, symbols_cons, h,
      Lexeme.symbol_eq_branch_iff.2 ⟨_, ht, Keyword.roleOf_of_isBranchOf hb, rfl⟩]
    rfl

end

mutual

theorem Sequence.tree : ∀ {w : List Symbol}, Sequence w → ∀ {ts : List Token}, symbols ts = w →
    ∃ ns, SequenceTree ts ns
  | _, .empty, ts, h => ⟨[], List.map_eq_nil_iff.1 h ▸ .empty⟩
  | _, .cons hi hw, ts, h => by
    obtain ⟨us, vs, rfl, hu, hv⟩ := List.map_eq_append_iff.1 h
    obtain ⟨ns, hn⟩ := hi.tree hu
    obtain ⟨ms, hm⟩ := hw.tree hv
    exact ⟨ns ++ ms, .cons hn hm⟩

theorem Item.tree : ∀ {w : List Symbol}, Item w → ∀ {ts : List Token}, symbols ts = w →
    ∃ ns, ItemTree ts ns
  | _, .leaf, ts, h => by
    obtain ⟨t, rfl, ht⟩ := List.map_eq_singleton_iff.1 h
    rcases Token.symbol_eq_leaf_iff.1 ht with ⟨value, ht, hv⟩ | ⟨n, hn⟩
    · exact ⟨[], .blank ht hv⟩
    · exact ⟨[n], .leaf hn⟩
  | _, .element hw, ts, h => by
    obtain ⟨t, rest, rfl, ht, hrest⟩ := List.map_eq_cons_iff.1 h
    obtain ⟨us, last, rfl, hu, hl⟩ := List.map_eq_append_iff.1 hrest
    obtain ⟨t', rfl, ht'⟩ := List.map_eq_singleton_iff.1 hl
    obtain ⟨head, ht, ho, hk⟩ := Lexeme.symbol_eq_opening_iff.1 ht
    obtain ⟨name, gap, ht', hk'⟩ := Lexeme.symbol_eq_closing_iff.1 ht'
    obtain ⟨ns, hn⟩ := hw.tree hu
    exact ⟨_, .element ht ho hn ht' (hk.trans hk'.symm)⟩
  | _, .block hw hv, ts, h => by
    rw [List.cons_append, List.cons_append] at h
    obtain ⟨t, rest, rfl, ht, hrest⟩ := List.map_eq_cons_iff.1 h
    obtain ⟨us, last, rfl, hu, hl⟩ := List.map_eq_append_iff.1 hrest
    obtain ⟨t', rfl, ht'⟩ := List.map_eq_singleton_iff.1 hl
    obtain ⟨us, vs, rfl, hu, hv'⟩ := List.map_eq_append_iff.1 hu
    obtain ⟨inner, ht, hr, hname⟩ := Lexeme.symbol_eq_block_iff.1 ht
    obtain ⟨inner', ht', hr'⟩ := Lexeme.symbol_eq_blockEnd_iff.1 ht'
    obtain ⟨ns, hn⟩ := hw.tree hu
    obtain ⟨branches, hb⟩ := hv.tree hv' hn none t.stop t'.start
    exact ⟨_, .block ht hr (hname ▸ hb) ht' (hname ▸ hr')⟩

/-- Branches behind the nodes of the one under way. -/
theorem Branches.tree : ∀ {name : Text} {v : List Symbol}, Branches name v →
    ∀ {us ts : List Token} {ns : List Node}, symbols ts = v → SequenceTree us ns →
    ∀ (label : Option Tag) (start stop : Nat),
    ∃ branches, BranchTrees name label start (us ++ ts) stop branches
  | _, _, .none, us, ts, ns, h, hn, label, start, stop => by
    obtain rfl := List.map_eq_nil_iff.1 h
    exact ⟨_, by rw [List.append_nil]; exact .last hn⟩
  | _, _, .more hb hw hv, us, ts, ns, h, hn, label, start, stop => by
    obtain ⟨t, rest, rfl, ht, hrest⟩ := List.map_eq_cons_iff.1 h
    obtain ⟨ts, vs, rfl, ht', hv'⟩ := List.map_eq_append_iff.1 hrest
    obtain ⟨inner, ht, -, hname⟩ := Lexeme.symbol_eq_branch_iff.1 ht
    obtain ⟨ms, hm⟩ := hw.tree ht'
    obtain ⟨branches, hbs⟩ := hv.tree hv' hm (some (.ofInner inner)) t.start stop
    exact ⟨_, .more hn ht (hname ▸ hb) hbs⟩

end

end Nesting

open Nesting

/-- **Language and trees**: a template is accepted if and only if none of its lexemes is invalid and
its symbols are a sequence of the nesting language; the document then has the nodes of that
derivation, and no other document is the template's. -/
theorem Document.parse_iff_sequence (source : Text) :
    ((∃ d, parse source = .ok d) ↔
      (∀ t ∈ Token.ofText source, t.item.isInvalid = false) ∧
        Sequence ((Token.ofText source).map fun t => t.item.symbol)) ∧
    ∀ d, parse source = .ok d ↔
      d.source = source ∧ SequenceTree (Token.ofText source) d.children := by
  refine ⟨⟨?_, ?_⟩, fun d => parse_eq_ok_iff_sequenceTree⟩
  · rintro ⟨d, h⟩
    have hw := (parse_eq_ok_iff_sequenceTree.1 h).2.symbols
    refine ⟨fun t ht => ?_, hw⟩
    have hne : t.item.symbol ≠ .invalid := fun hs => hw.valid (hs ▸ List.mem_map_of_mem ht)
    rw [Ne, Lexeme.symbol_eq_invalid_iff] at hne
    simpa using hne
  · rintro ⟨-, hw⟩
    obtain ⟨ns, hn⟩ := hw.tree rfl
    exact ⟨⟨source, ns⟩, parse_eq_ok_iff_sequenceTree.2 ⟨rfl, hn⟩⟩

end LiquidTemplate

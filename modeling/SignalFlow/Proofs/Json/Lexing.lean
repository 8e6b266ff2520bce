import SignalFlow.Proofs.Json.Numerals
import SignalFlow.Proofs.Json.Values

/-!
The tokens of a written value. Each part of a text is read as its own tokens, whatever follows it;
only a numeral asks for something behind it that is no part of a numeral, and what the printer puts
there is none.
-/

namespace SignalFlow

namespace Json

-- More fuel than it takes does not change the tokens.
theorem tokensWithin_succ {fuel : Nat} {cs : List Char} {ts : List Token}
    (h : tokensWithin fuel cs = some ts) : tokensWithin (fuel + 1) cs = some ts := by
  induction fuel generalizing cs ts
  case zero =>
    cases cs
    case nil  => exact h
    case cons => cases h
  case succ fuel hi =>
    cases cs
    case nil         => exact h
    case cons c rest =>
      rw [tokensWithin] at h ⊢
      split
      case isTrue hb =>
        rw [if_pos hb] at h
        exact hi h
      case isFalse hb =>
        rw [if_neg hb] at h
        have ⟨(t, rest), ht, h⟩ := Option.bind_eq_some_iff.mp h
        have ⟨ts, hts, h⟩ := Option.map_eq_some_iff.mp h
        simp only [ht, bind, Option.bind_some, hi hts, Option.map_some, h]

theorem tokensWithin_of_le {fuel fuel' : Nat} {cs : List Char} {ts : List Token}
    (hl : fuel ≤ fuel') (h : tokensWithin fuel cs = some ts) : tokensWithin fuel' cs = some ts := by
  induction hl
  case refl      => exact h
  case step _ hi => exact tokensWithin_succ hi

variable {c : Char} {cs rest : List Char} {t : Token} {ts : List Token}

theorem tokens?_of_scan (hb : ¬isBlank c) (hs : scanToken (c :: cs ++ rest) = some (t, rest))
    (h : tokens? rest = some ts) : tokens? (c :: cs ++ rest) = some (t :: ts) := by
  have hl : rest.length ≤ (cs ++ rest).length := by simp
  rw [tokens?, List.cons_append, List.length_cons, tokensWithin, if_neg hb, ←List.cons_append, hs]
  simp only [bind, Option.bind_some, tokensWithin_of_le hl h, Option.map_some]

theorem tokens?_of_blank (hb : isBlank c) (h : tokens? rest = some ts) :
    tokens? (c :: rest) = some ts := by
  rw [tokens?, List.length_cons, tokensWithin, if_pos hb]
  exact h

-- The characters are read as these tokens, whatever follows them.
def Spells (cs : List Char) (ts : List Token) : Prop :=
  ∀ rest ts', tokens? rest = some ts' → tokens? (cs ++ rest) = some (ts ++ ts')

-- The characters are read as these tokens, if they end there.
def SpellsBefore (cs : List Char) (ts : List Token) : Prop :=
  ∀ rest ts', Ends rest → tokens? rest = some ts' → tokens? (cs ++ rest) = some (ts ++ ts')

theorem Spells.before (h : Spells cs ts) : SpellsBefore cs ts :=
  fun rest ts' _ hr => h rest ts' hr

theorem Spells.append_before {cs' : List Char} {ts' : List Token} (h : Spells cs ts)
    (h' : SpellsBefore cs' ts') : SpellsBefore (cs ++ cs') (ts ++ ts') := by
  intro rest ts'' he hr
  rw [List.append_assoc, List.append_assoc]
  exact h _ _ <| h' _ _ he hr

theorem SpellsBefore.append_cons {cs' : List Char} {ts' : List Token} (h : SpellsBefore cs ts)
    (h' : SpellsBefore (c :: cs') ts') (hc : Delimits c) :
    SpellsBefore (cs ++ c :: cs') (ts ++ ts') := by
  intro rest ts'' he hr
  rw [List.append_assoc, List.append_assoc]
  exact h _ _ (by rintro _ ⟨⟩; exact hc) <| h' _ _ he hr

theorem spells_of_scan (hb : ¬isBlank c)
    (hs : ∀ rest, scanToken (c :: cs ++ rest) = some (t, rest)) : Spells (c :: cs) [t] :=
  fun rest _ hr => tokens?_of_scan hb (hs rest) hr

theorem spells_newline (level : Nat) : Spells (newline level) [] := by
  have spaces (n : Nat) : Spells (List.replicate n ' ') [] := by
    induction n
    case zero      => exact fun _ _ hr => hr
    case succ n hi => exact fun rest ts' hr => tokens?_of_blank rfl <| hi rest ts' hr
  exact fun rest ts' hr => tokens?_of_blank rfl <| spaces _ rest ts' hr

section Quoted

-- The piece that a character is read as. Control characters without a short escape are numbered.
def piece (c : Char) : Piece :=
  if c.toNat < 32 ∧ c ∉ ['\n', '\r', '\t', '\x08', '\x0c'] then .unit c.toNat else .char c

theorem joinPieces_piece (cs : List Char) : joinPieces (cs.map piece) = some cs := by
  induction cs
  case nil          => rfl
  case cons c cs hi =>
    rw [List.map_cons, piece]
    split
    case isFalse  => rw [joinPieces, hi, Option.map_some]
    case isTrue h =>
      have high : isHighSurrogate c.toNat = false := by simp [isHighSurrogate]; omega
      have low : isLowSurrogate c.toNat = false := by simp [isLowSurrogate]; omega
      rw [joinPieces.eq_def]
      simp [high, low, hi]

theorem scanText_short {e c : Char} (rest : List Char) (he : e ≠ 'u') (hc : escaped? e = some c) :
    scanText ('\\' :: e :: rest) = (scanText rest).map fun r => (.char c :: r.1, r.2) := by
  rw [scanText, hc]
  · cases scanText rest <;> rfl
  · simp [he]

theorem scanText_numbered {n : Nat} (rest : List Char) (hn : n < 32) :
    scanText ('\\' :: 'u' :: '0' :: '0' :: hexDigit (n / 16) :: hexDigit n :: rest) =
      (scanText rest).map fun r => (.unit n :: r.1, r.2) := by
  have hu : ∀ n < 32, unit? '0' '0' (hexDigit (n / 16)) (hexDigit n) = some n := by decide
  rw [scanText, hu n hn]
  cases scanText rest <;> rfl

theorem scanText_plain (rest : List Char) (hq : c ≠ '"') (hb : c ≠ '\\') (hc : ¬c.toNat < 32) :
    scanText (c :: rest) = (scanText rest).map fun r => (.char c :: r.1, r.2) := by
  have hn : ¬(c.toNat < 32 || c = '\\') := by simp [hb, hc]
  rw [scanText, if_neg hn]
  · cases scanText rest <;> rfl
  · exact hq
  · exact fun _ _ _ _ _ h _ => hb h
  · exact fun _ _ h _ => hb h

theorem scanText_escape (c : Char) (rest : List Char) :
    scanText (escape c ++ rest) = (scanText rest).map fun r => (piece c :: r.1, r.2) := by
  by_cases hs : c ∈ ['"', '\\', '\n', '\r', '\t', '\x08', '\x0c']
  case pos =>
    simp only [List.mem_cons, List.not_mem_nil, or_false] at hs
    rcases hs with rfl | rfl | rfl | rfl | rfl | rfl | rfl <;>
      exact scanText_short rest (by decide) rfl
  case neg =>
    have named (d : Char) (hd : c.toNat = d.toNat) : c = d := Char.toNat_inj.mp hd
    have h8 : c.toNat ≠ 8 := fun h => hs <| by simp [named '\x08' h]
    have h12 : c.toNat ≠ 12 := fun h => hs <| by simp [named '\x0c' h]
    simp only [List.mem_cons, not_or] at hs
    simp only [escape, piece, hs, h8, h12, if_false]
    by_cases hc : c.toNat < 32
    case pos =>
      rw [if_pos hc, if_pos (by simp [hc, hs])]
      exact scanText_numbered rest hc
    case neg =>
      rw [if_neg hc, if_neg fun h => hc h.left]
      exact scanText_plain rest hs.left hs.right.left hc

theorem scanText_flatMap_escape (cs rest : List Char) :
    scanText (cs.flatMap escape ++ '"' :: rest) = some (cs.map piece, rest) := by
  induction cs
  case nil          => rfl
  case cons c cs hi =>
    rw [List.flatMap_cons, List.append_assoc, scanText_escape, hi]
    rfl

theorem spells_quoted (s : String) : Spells (quoted s) [.str (some s)] := by
  change Spells ('"' :: (s.toList.flatMap escape ++ ['"'])) _
  apply spells_of_scan (by decide)
  intro rest
  have ht := scanText_flatMap_escape s.toList rest
  rw [List.cons_append, List.append_assoc, scanToken, List.singleton_append, ht]
  simp only [Option.map_some, joinPieces_piece, String.ofList_toList]

end Quoted

section Values

mutual

-- The tokens that a value is written with.
def tokens : Json → List Token
  | .null => [.null]
  | .bool b => [.bool b]
  | .num n => [.num (some n)]
  | .str s => [.str (some s)]
  | .arr items => .openList :: itemTokens items ++ [.closeList]
  | .obj members => .openObject :: memberTokens members ++ [.closeObject]

def itemTokens : List Json → List Token
  | [] => []
  | [j] => j.tokens
  | j :: rest => j.tokens ++ .comma :: itemTokens rest

def memberTokens : List (String × Json) → List Token
  | [] => []
  | [(name, j)] => .str (some name) :: .colon :: j.tokens
  | (name, j) :: rest => .str (some name) :: .colon :: j.tokens ++ .comma :: memberTokens rest

end

mutual

-- The floats within a value, as they are written.
def floats : Json → List Number
  | .num (.float x h) => [.float x h]
  | .arr items => itemFloats items
  | .obj members => memberFloats members
  | _ => []

def itemFloats : List Json → List Number
  | [] => []
  | j :: rest => j.floats ++ itemFloats rest

def memberFloats : List (String × Json) → List Number
  | [] => []
  | (_, j) :: rest => j.floats ++ memberFloats rest

end

theorem mem_itemFloats {x : Number} {j : Json} {items : List Json} (hj : j ∈ items)
    (hx : x ∈ j.floats) : x ∈ itemFloats items := by
  induction hj
  case head      => exact List.mem_append_left _ hx
  case tail _ hi => exact List.mem_append_right _ hi

theorem mem_memberFloats {x : Number} {m : String × Json} {members : List (String × Json)}
    (hm : m ∈ members) (hx : x ∈ m.2.floats) : x ∈ memberFloats members := by
  induction hm
  case head      => exact List.mem_append_left _ hx
  case tail _ hi => exact List.mem_append_right _ hi

-- No other token starts as a numeral does.
theorem scanToken_of_numeral {numeral : Numeral} (h : scanNumeral cs = some (numeral, rest)) :
    scanToken cs = some (.num numeral.value?, rest) := by
  have ⟨c, tail, hc, hd⟩ := exists_head_of_scanNumeral h
  rw [scanToken.eq_def]
  split
  case h_11 => rw [h]; rfl
  all_goals
    cases hc
    exact absurd hd (by decide)

theorem spells_number {n : Number} (h : n.ReadsBack) :
    SpellsBefore n.text.toList [.num (some n)] := by
  intro rest ts he hr
  have ⟨numeral, hs, hv⟩ := h.exists_numeral
  have ⟨c, tail, hc, hd⟩ := exists_head_of_scanNumeral hs
  have ht := scanToken_of_numeral <| scanNumeral_append hs fun _ => he
  rw [hv, List.nil_append] at ht
  rw [hc] at ht ⊢
  have hb : ¬isBlank c := by
    intro hb
    simp only [isBlank, Bool.or_eq_true, decide_eq_true_eq] at hb
    rcases hb with ((rfl | rfl) | rfl) | rfl <;> exact absurd hd (by decide)
  exact tokens?_of_scan hb ht hr

-- A list is written one part after the other, with a comma between any two.
structure Separated {α β : Type} (one : α → List β) (comma : β) (all : List α → List β) : Prop where
  nil    : all [] = []
  single : ∀ a, all [a] = one a
  cons   : ∀ a b l, all (a :: b :: l) = one a ++ comma :: all (b :: l)

theorem separated_itemTokens : Separated tokens .comma itemTokens :=
  ⟨rfl, fun _ => rfl, fun _ _ _ => rfl⟩

theorem separated_memberTokens :
    Separated (fun m => .str (some m.1) :: .colon :: m.2.tokens) .comma memberTokens :=
  ⟨rfl, fun _ => rfl, fun _ _ _ => rfl⟩

theorem spells_separated {α : Type} {one : α → List Char} {all : List α → List Char}
    {token : α → List Token} {tokens : List α → List Token} (hc : Separated one ',' all)
    (ht : Separated token .comma tokens) {l : List α}
    (h : ∀ a ∈ l, SpellsBefore (one a) (token a)) : SpellsBefore (all l) (tokens l) := by
  have comma : Spells [','] [.comma] := spells_of_scan (by decide) fun _ => rfl
  induction l
  case nil         => rw [hc.nil, ht.nil]; exact fun _ _ _ hr => hr
  case cons a l hi =>
    have ha := h a (.head _)
    cases l
    case nil      => rw [hc.single, ht.single]; exact ha
    case cons b l =>
      have hl := comma.append_before <| hi fun b hb => h b (.tail _ hb)
      rw [hc.cons, ht.cons]
      exact ha.append_cons hl (by decide)

theorem spells_itemChars {items : List Json} (h : ∀ j ∈ items, SpellsBefore j.chars j.tokens) :
    SpellsBefore (itemChars items) (itemTokens items) :=
  spells_separated ⟨rfl, fun _ => rfl, fun _ _ _ => rfl⟩ separated_itemTokens h

theorem spells_indentedItems {level : Nat} {items : List Json}
    (h : ∀ j ∈ items, SpellsBefore (j.indented level) j.tokens) :
    SpellsBefore (indentedItems level items) (itemTokens items) :=
  spells_separated ⟨rfl, fun _ => rfl, fun _ _ _ => rfl⟩ separated_itemTokens
    fun j hj => (spells_newline level).append_before <| h j hj

theorem spells_colon : Spells [':'] [.colon] :=
  spells_of_scan (by decide) fun _ => rfl

theorem spells_memberChars {members : List (String × Json)}
    (h : ∀ m ∈ members, SpellsBefore m.2.chars m.2.tokens) :
    SpellsBefore (memberChars members) (memberTokens members) :=
  spells_separated ⟨rfl, fun _ => rfl, fun _ _ _ => rfl⟩ separated_memberTokens
    fun m hm => (spells_quoted m.1).append_before <| spells_colon.append_before <| h m hm

theorem spells_indentedMembers {level : Nat} {members : List (String × Json)}
    (h : ∀ m ∈ members, SpellsBefore (m.2.indented level) m.2.tokens) :
    SpellsBefore (indentedMembers level members) (memberTokens members) := by
  have space : Spells [' '] [] := fun _ _ hr => tokens?_of_blank rfl hr
  have hs : Separated
      (fun m : String × Json => newline level ++ quoted m.1 ++ ':' :: ' ' :: m.2.indented level) ','
      (indentedMembers level) := ⟨rfl, fun _ => rfl, fun _ _ _ => rfl⟩
  refine spells_separated hs separated_memberTokens fun m hm => ?_
  have hj := (spells_newline level).append_before <| (spells_quoted m.1).append_before <|
    spells_colon.append_before <| space.append_before <| h m hm
  rwa [←List.append_assoc] at hj

theorem spells_enclosed {first last : Char} {open' close : Token} (hf : Spells [first] [open'])
    (hl : Spells [last] [close]) (hd : Delimits last) {cs : List Char} {ts : List Token}
    (h : SpellsBefore cs ts) : SpellsBefore (first :: cs ++ [last]) (open' :: ts ++ [close]) :=
  hf.append_before <| h.append_cons hl.before hd

theorem spells_indented_enclosed {first last : Char} {open' close : Token}
    (hf : Spells [first] [open']) (hl : Spells [last] [close]) {cs : List Char} {ts : List Token}
    (h : SpellsBefore cs ts) (level : Nat) :
    SpellsBefore (first :: cs ++ newline level ++ [last]) (open' :: ts ++ [close]) := by
  have he := (spells_newline level).append_before hl.before
  have hb := hf.append_before <| h.append_cons he (by decide)
  rw [List.append_assoc]
  exact hb

theorem spells_openList : Spells ['['] [.openList] :=
  spells_of_scan (by decide) fun _ => rfl

theorem spells_closeList : Spells [']'] [.closeList] :=
  spells_of_scan (by decide) fun _ => rfl

theorem spells_openObject : Spells ['\x7b'] [.openObject] :=
  spells_of_scan (by decide) fun _ => rfl

theorem spells_closeObject : Spells ['\x7d'] [.closeObject] :=
  spells_of_scan (by decide) fun _ => rfl

-- A value whose floats read back is read as its tokens.
theorem spells_chars {j : Json} (h : ∀ x ∈ j.floats, x.ReadsBack) :
    SpellsBefore j.chars j.tokens := by
  induction j
  case null         => exact (spells_of_scan (by decide) fun _ => rfl).before
  case bool b       => cases b <;> exact (spells_of_scan (by decide) fun _ => rfl).before
  case str s        => exact (spells_quoted s).before
  case num n        =>
    cases n
    case int i hr   => exact spells_number Number.readsBack_int
    case float x hx => exact spells_number <| h _ (.head _)
  case arr items hi =>
    refine spells_enclosed spells_openList spells_closeList (by decide) <|
      spells_itemChars fun j hj => ?_
    exact hi j hj fun x hx => h x <| mem_itemFloats hj hx
  case obj members hi =>
    refine spells_enclosed spells_openObject spells_closeObject (by decide) <|
      spells_memberChars fun m hm => ?_
    exact hi m hm fun x hx => h x <| mem_memberFloats hm hx

-- The same at whatever level it is indented.
theorem spells_indented {j : Json} (h : ∀ x ∈ j.floats, x.ReadsBack) (level : Nat) :
    SpellsBefore (j.indented level) j.tokens := by
  -- for all levels at once, as parts are written one level deeper
  induction j generalizing level
  case null | num | str => exact spells_chars h
  case bool b           => cases b <;> exact spells_chars h
  case arr items hi     =>
    cases items
    case nil  => exact spells_openList.append_before spells_closeList.before
    case cons =>
      refine spells_indented_enclosed spells_openList spells_closeList
        (spells_indentedItems fun j hj => ?_) level
      exact hi j hj (fun x hx => h x <| mem_itemFloats hj hx) _
  case obj members hi   =>
    cases members
    case nil  => exact spells_openObject.append_before spells_closeObject.before
    case cons =>
      refine spells_indented_enclosed spells_openObject spells_closeObject
        (spells_indentedMembers fun m hm => ?_) level
      exact hi m hm (fun x hx => h x <| mem_memberFloats hm hx) _

theorem tokens?_compact {j : Json} (h : ∀ x ∈ j.floats, x.ReadsBack) :
    tokens? j.compact.toList = some j.tokens := by
  have hs := spells_chars h [] [] (by rintro _ ⟨⟩) rfl
  rw [List.append_nil, List.append_nil] at hs
  rw [compact, String.toList_ofList, hs]

theorem tokens?_pretty {j : Json} (h : ∀ x ∈ j.floats, x.ReadsBack) :
    tokens? j.pretty.toList = some j.tokens := by
  have hs := spells_indented h 0 [] [] (by rintro _ ⟨⟩) rfl
  rw [List.append_nil, List.append_nil] at hs
  rw [pretty, String.toList_ofList, hs]

end Values

end Json

end SignalFlow

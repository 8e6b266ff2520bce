import SignalFlow.Json.Reader
import SignalFlow.Proofs.Json.Lexing

/-!
The reader as a machine. From the tokens of a value that is not too deep it gets to the document
that the value makes; and whatever it gets to, no document is deeper than there was room for it
inside the lists and objects that are open.
-/

namespace SignalFlow

namespace Json

open Document (ofJson ofItems ofMembers)

namespace ReaderState

-- The machine takes all tokens.
def Reads (s : ReaderState) (ts : List Token) (s' : ReaderState) : Prop :=
  ts.foldlM step s = some s'

variable {s s₁ s₂ : ReaderState} {t : Token} {ts ts' : List Token}

theorem Reads.refl : s.Reads [] s :=
  rfl

theorem Reads.cons (h : s.step t = some s₁) (h' : s₁.Reads ts s₂) : s.Reads (t :: ts) s₂ := by
  rw [Reads, List.foldlM_cons, h]
  exact h'

theorem Reads.trans (h : s.Reads ts s₁) (h' : s₁.Reads ts' s₂) : s.Reads (ts ++ ts') s₂ := by
  rw [Reads, List.foldlM_append, h]
  exact h'

section Values

variable {stack : List Frame} {opened : Bool}

theorem close_of_lt {d : Document} (h : stack.length < depthLimit) :
    close stack d = .done stack d := by
  rw [close, if_pos h]

-- The items of a list, some of which are read already.
theorem reads_items {items : List Json} (hn : items ≠ []) (read : List Document) (opened : Bool)
    (h : ∀ j ∈ items, ∀ read opened,
      Reads (.item (.list read :: stack) opened) j.tokens
        (.done (.list read :: stack) (ofJson j))) :
    Reads (.item (.list read :: stack) opened) (itemTokens items ++ [.closeList])
      (close stack (.arr (read.reverse ++ ofItems items))) := by
  induction items generalizing read opened
  case nil            => exact absurd rfl hn
  case cons j items hi =>
    have hj := h j (.head _) read opened
    cases items
    case nil  =>
      refine hj.trans <| .cons ?_ .refl
      rw [step, List.reverse_cons]
      rfl
    case cons =>
      have hl := hi (by simp) (ofJson j :: read) false fun j hm => h j (.tail _ hm)
      rw [List.reverse_cons, List.append_assoc] at hl
      rw [itemTokens, List.append_assoc]
      · exact hj.trans <| .cons rfl hl
      · simp

theorem reads_members {members : List (String × Json)} (hn : members ≠ [])
    (read : List (Option String × Document)) (opened : Bool)
    (h : ∀ m ∈ members, ∀ read name,
      Reads (.item (.object read name :: stack) false) m.2.tokens
        (.done (.object read name :: stack) (ofJson m.2))) :
    Reads (.member stack read opened) (memberTokens members ++ [.closeObject])
      (close stack (.obj (read.reverse ++ ofMembers members))) := by
  induction members generalizing read opened
  case nil              => exact absurd rfl hn
  case cons m members hi =>
    have ⟨name, j⟩ := m
    have hj := h _ (.head _) read (some name)
    cases members
    case nil  =>
      refine .cons rfl <| .cons rfl <| hj.trans <| .cons ?_ .refl
      rw [step, List.reverse_cons]
      rfl
    case cons =>
      have hl := hi (by simp) ((some name, ofJson j) :: read) false
        fun m hm => h m (.tail _ hm)
      rw [List.reverse_cons, List.append_assoc] at hl
      rw [memberTokens, List.append_assoc]
      · exact .cons rfl <| .cons rfl <| hj.trans <| .cons rfl hl
      · simp

-- A value that there is room for is read from its tokens.
theorem reads_tokens {j : Json} {room : Nat} (h : j.Within room)
    (hs : stack.length + room ≤ depthLimit) :
    Reads (.item stack opened) j.tokens (.done stack (ofJson j)) := by
  induction h generalizing stack opened
  case null | bool | num | str => exact .cons rfl .refl
  case arr room items _ hi     =>
    have hc := close_of_lt (d := ofJson (.arr items)) (show stack.length < depthLimit by omega)
    rw [←hc]
    cases items
    case nil  => exact .cons rfl <| .cons rfl .refl
    case cons =>
      refine .cons rfl <| reads_items (by simp) [] true fun j hj read opened => hi j hj ?_
      rw [List.length_cons]
      omega
  case obj room members _ hi   =>
    have hc := close_of_lt (d := ofJson (.obj members)) (show stack.length < depthLimit by omega)
    rw [←hc]
    cases members
    case nil  => exact .cons rfl <| .cons rfl .refl
    case cons =>
      refine .cons rfl <| reads_members (by simp) [] true fun m hm read name => hi m hm ?_
      rw [List.length_cons]
      omega

end Values

end ReaderState

theorem document?_tokens {j : Json} (h : j.Within depthLimit) :
    document? j.tokens = some (ofJson j) := by
  have hr : ReaderState.start.Reads j.tokens (.done [] (ofJson j)) :=
    ReaderState.reads_tokens h (by simp)
  rw [document?, show j.tokens.foldlM _ _ = _ from hr]
  rfl

end Json

-- The text of a value is read as the document that the value makes.
theorem Document.parse?_pretty {j : Json} (hw : j.Within Json.depthLimit)
    (hf : ∀ x ∈ j.floats, x.ReadsBack) : parse? j.pretty = some (ofJson j) := by
  rw [parse?, Json.tokens?_pretty hf, Option.bind_some, Json.document?_tokens hw]

theorem Document.parse?_compact {j : Json} (hw : j.Within Json.depthLimit)
    (hf : ∀ x ∈ j.floats, x.ReadsBack) : parse? j.compact = some (ofJson j) := by
  rw [parse?, Json.tokens?_compact hf, Option.bind_some, Json.document?_tokens hw]

namespace Json

section Depth

open Document (Within)

-- What is done of a list or an object fits the room for its parts.
def Frame.Fits (room : Nat) : Frame → Prop
  | .list items       => ∀ d ∈ items, d.Within room
  | .object members _ => ∀ m ∈ members, m.2.Within room

-- The room inside of all that is open.
def roomIn (stack : List Frame) : Nat :=
  depthLimit - stack.length

-- Everything that was read fits the place where it stands.
def AllFit : List Frame → Prop
  | []         => True
  | f :: stack => f.Fits (roomIn (f :: stack)) ∧ AllFit stack

def ReaderState.Fits : ReaderState → Prop
  | .item stack _         => AllFit stack
  | .member stack parts _ => AllFit (.object parts none :: stack)
  | .colon stack parts _  => AllFit (.object parts none :: stack)
  | .done stack value     => value.Within (roomIn stack) ∧ AllFit stack

variable {stack : List Frame}

theorem roomIn_of_lt (h : stack.length < depthLimit) (f : Frame) :
    roomIn stack = roomIn (f :: stack) + 1 := by
  rw [roomIn, roomIn, List.length_cons]
  omega

theorem fits_close_arr {items : List Document} (h : AllFit (.list items :: stack)) :
    (ReaderState.close stack (.arr items.reverse)).Fits := by
  refine ⟨?_, h.right⟩
  split
  case isFalse   => exact .unusable
  case isTrue hl =>
    rw [roomIn_of_lt hl (.list items)]
    exact .arr fun d hd => h.left d <| List.mem_reverse.mp hd

theorem fits_close_obj {members : List (Option String × Document)} {name : Option String}
    (h : AllFit (.object members name :: stack)) :
    (ReaderState.close stack (.obj members.reverse)).Fits := by
  refine ⟨?_, h.right⟩
  split
  case isFalse   => exact .unusable
  case isTrue hl =>
    rw [roomIn_of_lt hl (.object members name)]
    exact .obj fun m hm => h.left m <| List.mem_reverse.mp hm

-- A value that was read may join what is open only as a part, and there is room for it there.
theorem fits_of_step {s s' : ReaderState} {t : Token} (h : s.step t = some s') (hf : s.Fits) :
    s'.Fits := by
  cases s
  case item stack opened =>
    cases t <;> try cases h
    case openList   => exact ⟨by simp [Frame.Fits], hf⟩
    case openObject => exact ⟨by simp [Frame.Fits], hf⟩
    case closeList  =>
      rw [ReaderState.step.eq_def] at h
      dsimp only at h
      split at h
      case h_1 => cases h; exact fits_close_arr hf
      case h_2 => cases h
    case null   => exact ⟨.null, hf⟩
    case bool   => exact ⟨.bool, hf⟩
    case num n  => cases n <;> exact ⟨by constructor, hf⟩
    case str s  => cases s <;> exact ⟨by constructor, hf⟩
  case member stack parts opened =>
    cases t <;> try cases h
    case str         => exact hf
    case closeObject =>
      rw [ReaderState.step] at h
      split at h
      case isTrue  => cases h; exact fits_close_obj hf
      case isFalse => cases h
  case colon stack parts name =>
    cases t <;> cases h
    exact hf
  case done stack value =>
    have ⟨hv, hs⟩ := hf
    cases stack
    case nil => cases t <;> cases h
    case cons f stack =>
      cases f
      case list items           =>
        have hi : AllFit (.list (value :: items) :: stack) :=
          ⟨List.forall_mem_cons.mpr ⟨hv, hs.left⟩, hs.right⟩
        cases t <;> cases h
        case comma     => exact hi
        case closeList => exact fits_close_arr hi
      case object members name =>
        have hm : AllFit (.object ((name, value) :: members) none :: stack) :=
          ⟨List.forall_mem_cons.mpr ⟨hv, hs.left⟩, hs.right⟩
        cases t <;> cases h
        case comma       => exact hm
        case closeObject => exact fits_close_obj hm

theorem fits_of_reads {s s' : ReaderState} {ts : List Token} (h : s.Reads ts s') (hf : s.Fits) :
    s'.Fits := by
  induction ts generalizing s
  case nil         => cases h; exact hf
  case cons t _ hi =>
    have ⟨s₁, ht, h⟩ := Option.bind_eq_some_iff.mp h
    exact hi h <| fits_of_step ht hf

end Depth

theorem within_of_document? {ts : List Token} {d : Document} (h : document? ts = some d) :
    d.Within depthLimit := by
  have ⟨s, hs, h⟩ := Option.bind_eq_some_iff.mp h
  have hf := fits_of_reads hs trivial
  cases s
  case item | member | colon => cases h
  case done stack value      =>
    cases stack
    case nil  => cases h; exact hf.left
    case cons => cases h

end Json

theorem Document.within_of_parse? {t : String} {d : Document} (h : parse? t = some d) :
    d.Within Json.depthLimit :=
  have ⟨_, _, hd⟩ := Option.bind_eq_some_iff.mp h
  Json.within_of_document? hd

end SignalFlow

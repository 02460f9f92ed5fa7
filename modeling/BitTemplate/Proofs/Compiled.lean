import BitTemplate.Proofs.Repetition

/-!
What compiled programs are made of. Whatever a pattern says, the directives of its program have operands that make
sense: widths are positive and fit their encoding, a byte field up to the end of the data takes all of it, and markers
and labels are not empty. A block only repeats what is in it.
-/

namespace BitTemplate

/-- A window up to the end of the data, or of at least one bit. -/
def Width.Positive : Width → Prop
  | .bits count => 0 < count
  | .rest => True

/-- Operands that make sense. -/
def Directive.WellFormed : Directive → Prop
  | .value encoding (.bits width) =>
    0 < width ∧ (encoding.needsBytes = true → width % 8 = 0) ∧ (encoding = .float → width = 32 ∨ width = 64)
      ∧ (encoding = .uint ∨ encoding = .sint → width ≤ 128)
  | .value encoding .rest => encoding.needsBytes = false
  | .next width => 0 < width
  | .constant _ width => 0 < width
  | .mod change width => width.Positive ∧ ∀ count, change = .endianSwap → width = .bits count → count % 8 = 0
  | .modOff _ _ width => width.Positive
  | .takeAll encoding => encoding.needsBytes = true
  | .marker _ bytes => bytes ≠ []
  | .control (.setLabel name) => name ≠ ""
  | .control (.defLabel name _) => name ≠ ""
  | .control (.matchLabel name) => name ≠ ""
  | _ => True

namespace Pattern

/-! ## Operands -/

theorem width_pos {digits : List Char} {n : Nat} (h : width digits = .ok n) : 0 < n := by
  simp only [width, except_bind_ok] at h
  obtain ⟨m, _, h⟩ := h
  split at h
  · cases h
  · cases h
    omega

theorem extentOf_positive {text : List Char} {w : Width} (h : extentOf text = .ok w) : w.Positive := by
  simp only [extentOf] at h
  split at h
  · cases h
    trivial
  · simp only [except_bind_ok, except_pure_ok] at h
    obtain ⟨n, hn, rfl⟩ := h
    exact width_pos hn

theorem labelName_ne {count : Nat} {text : List Char} {name : String} (h : labelName count text = .ok name) :
    name ≠ "" := by
  simp only [labelName] at h
  split at h
  · cases h
  · rename_i nonempty
    cases h
    intro empty
    apply nonempty
    have := congrArg String.toList empty
    rw [String.toList_ofList] at this
    simp [this]

/-! ## Directives -/

/-- What a single token is compiled to, by its kind: a directive of one form with operands that make sense. A change at the
cursor, a name and the bytes of a marker are those that the token spells. -/
inductive TokenKind.Makes (text : List Char) : TokenKind → Directive → Prop
  | value {encoding : Encoding} {width : Width} (formed : (Directive.value encoding width).WellFormed) :
      Makes text .field (.value encoding width)
  | takeAll {encoding : Encoding} (formed : (Directive.takeAll encoding).WellFormed) :
      Makes text .field (.takeAll encoding)
  | next {width : Nat} (formed : 0 < width) : Makes text .fill (.next width)
  | constant {bit : Bool} {width : Nat} (formed : 0 < width) : Makes text .fill (.constant bit width)
  | mod {change : CursorChange} {width : Width} (made : modifier text = .ok (.mod change width))
      (formed : (Directive.mod change width).WellFormed) : Makes text .mod (.mod change width)
  | modOff {change : OffsetChange} {offset : Nat} {width : Width} (formed : width.Positive) :
      Makes text .modOff (.modOff change offset width)
  | setFlag {flag : Flag} {setting : Setting} : Makes text .modSet (.control (.setFlag flag setting))
  | nestOpen : Makes text .bracketOpen (.control .nestOpen)
  | nestClose : Makes text .bracketClose (.control .nestClose)
  | setLabel {name : String} (named : labelName 3 text = .ok name) : Makes text .setLabel (.control (.setLabel name))
  | defLabel {name : String} (named : labelName 2 text = .ok name) :
      Makes text .defLabel (.control (.defLabel name none))
  | matchLabel {name : String} (named : labelName 3 text = .ok name) :
      Makes text .matchLabel (.control (.matchLabel name))
  | markerStart {bytes : List UInt8} (digits : Hex.pairs? (between 3 text) = some bytes) (formed : bytes ≠ []) :
      Makes text .markerStart (.marker false bytes)
  | markerEnd {bytes : List UInt8} (digits : Hex.pairs? (between 3 text) = some bytes) (formed : bytes ≠ []) :
      Makes text .markerEnd (.marker true bytes)
  | jump {origin : JumpOrigin} {bits : Nat} : Makes text .jump (.jump origin bits)

section

variable {text : List Char} {directive : Directive}

theorem field_makes (h : field text = .ok directive) : TokenKind.field.Makes text directive := by
  simp only [field] at h
  split at h
  · cases h
  · split at h
    · cases h
    · split at h
      · split at h
        · cases h
          exact .takeAll ‹_›
        · cases h
          exact .value (eq_false_of_ne_true ‹_›)
      · obtain ⟨bits, positive, h⟩ := except_bind_ok.mp h
        split at h
        · cases h
        · split at h
          · cases h
          · split at h
            · cases h
            · cases h
              exact .value ⟨width_pos positive, by grind, by grind, by grind⟩

theorem fill_makes (h : fill text = .ok directive) : TokenKind.fill.Makes text directive := by
  obtain ⟨_, positive, h⟩ := except_bind_ok.mp h
  split at h <;> cases h
  case h_5 => exact .next (width_pos positive)
  all_goals exact .constant (width_pos positive)

theorem modifier_makes (h : modifier text = .ok directive) : TokenKind.mod.Makes text directive := by
  have made := h
  obtain ⟨extent, measured, h⟩ := except_bind_ok.mp h
  have positive := extentOf_positive measured
  split at h
  · cases h
    exact .mod made ⟨positive, fun _ swap => nomatch swap⟩
  · cases h
    exact .mod made ⟨positive, fun _ swap => nomatch swap⟩
  · split at h
    · cases h
      refine .mod made ⟨positive, fun count _ same => ?_⟩
      cases same
      assumption
    · cases h
  · cases h
    exact .mod made ⟨trivial, fun _ _ same => nomatch same⟩

theorem offsetModifier_makes (h : offsetModifier text = .ok directive) : TokenKind.modOff.Makes text directive := by
  simp only [offsetModifier, except_bind_ok] at h
  obtain ⟨_, _, _, measured, h⟩ := h
  split at h <;> cases h <;> exact .modOff (extentOf_positive measured)

theorem flagSetting_makes (h : flagSetting text = .ok directive) : TokenKind.modSet.Makes text directive := by
  simp only [flagSetting] at h
  split at h <;> cases h <;> exact .setFlag

theorem jump_makes (h : jump text = .ok directive) : TokenKind.jump.Makes text directive := by
  obtain ⟨_, _, h⟩ := except_bind_ok.mp h
  dsimp only at h
  split at h
  · cases h
  · obtain ⟨_, _, h⟩ := except_bind_ok.mp h
    cases h
    exact .jump

theorem marker_ok {last : Bool} (h : marker last text = .ok directive) :
    ∃ bytes, Hex.pairs? (between 3 text) = some bytes ∧ bytes ≠ [] ∧ directive = .marker last bytes := by
  simp only [marker] at h
  split at h
  · cases h
    exact ⟨_, ‹_›, List.cons_ne_nil _ _, rfl⟩
  · cases h

theorem map_directive_ok {x : Except Cause Directive} :
    Statement.directive <$> x = .ok (.directive directive) ↔ x = .ok directive := by
  cases x with
  | error cause => exact iff_of_false (fun h => nomatch h) (fun h => nomatch h)
  | ok made => exact ⟨fun h => by cases h; rfl, fun h => by cases h; rfl⟩

/-- The directive of a single token is one that its kind stands for. -/
theorem single_makes {kind : TokenKind} (h : single kind text = .ok (.directive directive)) :
    kind.Makes text directive := by
  cases kind with
  | field => exact field_makes (map_directive_ok.mp h)
  | fill => exact fill_makes (map_directive_ok.mp h)
  | mod => exact modifier_makes (map_directive_ok.mp h)
  | modOff => exact offsetModifier_makes (map_directive_ok.mp h)
  | modSet => exact flagSetting_makes (map_directive_ok.mp h)
  | jump => exact jump_makes (map_directive_ok.mp h)
  | bracketOpen =>
    cases h
    exact .nestOpen
  | bracketClose =>
    cases h
    exact .nestClose
  | setLabel =>
    obtain ⟨_, named, h⟩ := except_bind_ok.mp h
    cases h
    exact .setLabel named
  | defLabel =>
    obtain ⟨_, named, h⟩ := except_bind_ok.mp h
    cases h
    exact .defLabel named
  | matchLabel =>
    obtain ⟨_, named, h⟩ := except_bind_ok.mp h
    cases h
    exact .matchLabel named
  | markerStart =>
    obtain ⟨_, digits, formed, rfl⟩ := marker_ok (map_directive_ok.mp h)
    exact .markerStart digits formed
  | markerEnd =>
    obtain ⟨_, digits, formed, rfl⟩ := marker_ok (map_directive_ok.mp h)
    exact .markerEnd digits formed
  | _ => cases h

theorem TokenKind.Makes.wellFormed {kind : TokenKind} (h : kind.Makes text directive) : directive.WellFormed := by
  cases h with
  | value formed | takeAll formed | next formed | constant formed | mod _ formed | modOff formed => exact formed
  | markerStart _ formed | markerEnd _ formed => exact formed
  | setLabel named | defLabel named | matchLabel named => exact labelName_ne named
  | _ => trivial

end

/-! ## Statements -/

/-- The directive of a statement, if it is one, has a property. -/
def Statement.All (property : Directive → Prop) : Statement → Prop
  | .directive d => property d
  | _ => True

theorem single_wellFormed {kind : TokenKind} {text : List Char} {statement : Statement}
    (h : single kind text = .ok statement) : statement.All Directive.WellFormed := by
  cases statement with
  | directive directive => exact (single_makes h).wellFormed
  | _ => trivial

theorem readStatement_wellFormed {source : List Char} {token : Token} {tokens rest : List Token}
    {statement : Statement} {span : Span} (h : readStatement source token tokens = .ok (statement, span, rest)) :
    statement.All Directive.WellFormed := by
  simp only [readStatement] at h
  split at h
  · simp only [except_bind_ok, except_pure_ok] at h
    obtain ⟨_, _, h⟩ := h
    cases h
    trivial
  · simp only [except_bind_ok, except_pure_ok, except_mapError_ok] at h
    obtain ⟨name, named, _, _, h⟩ := h
    cases h
    exact labelName_ne named
  · simp only [except_bind_ok, except_pure_ok, except_mapError_ok] at h
    obtain ⟨read, made, h⟩ := h
    cases h
    exact single_wellFormed made

/-! ## Programs -/

/-- What every statement of a pattern has, every instruction of its program has. -/
theorem all_of_compile {property : Directive → Prop} {text : String} {program : Program}
    (h : compile text = .ok program)
    (each : ∀ token ∈ tokens text.toList, ∀ {more statement span rest},
      readStatement text.toList token more = .ok (statement, span, rest) → statement.All property) :
    ∀ i ∈ program.instructions, property i.directive := by
  intro i member
  obtain ⟨parts, reads, _, same⟩ := compile_iff.mp h
  obtain ⟨before, front, rest, split, item, ends⟩ := reads.exists_item i (same ▸ member)
  obtain ⟨token, more, rfl⟩ := List.exists_cons_of_ne_nil item.ne_nil
  obtain ⟨span, directive, rfl⟩ := item.exists_directive
  have read : readStatement text.toList token (more ++ rest) = .ok (.directive directive, span, rest) :=
    readStatement_directive.mpr ⟨token :: more, rfl, item, ends⟩
  exact each token (by simp [split]) read

/-- Every directive of a compiled program makes sense. -/
theorem wellFormed_of_compile {text : String} {program : Program} (h : compile text = .ok program) :
    ∀ i ∈ program.instructions, i.directive.WellFormed :=
  all_of_compile h fun _ _ => readStatement_wellFormed

end Pattern

end BitTemplate

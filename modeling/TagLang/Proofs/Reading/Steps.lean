import TagLang.Node.Reader

/-!
# Steps of the reader

`Reading.Step` lists what a token can do to a reading, one constructor for each kind of step with
all that it asks for. `Reading.step_eq_ok_iff` says that these are the steps of the reader, so that
facts about what is read are proved from this list and the reader is not opened again.
-/

namespace TagLang

namespace Reading

/-- A token leads from one reading to the next. -/
inductive Step (options : ParseOptions) (t : Token) : Reading → Reading → Prop
  | string {nodes : List Node} {frames : List Frame} {value : String} :
      t.kind = .string value →
      Step options t ⟨nodes, frames, .term⟩ (deliver nodes frames (.string value))
  | identifier {nodes : List Node} {frames : List Frame} {node : Node} :
      t.kind = .identifier → Node.ofIdentifier? t.text = some node →
      Step options t ⟨nodes, frames, .term⟩ (deliver nodes frames node)
  | listOpen {nodes : List Node} {frames : List Frame} :
      t.kind = .listOpen → frames.length < maxDepth →
      Step options t ⟨nodes, frames, .term⟩ ⟨nodes, .items [] :: frames, .term⟩
  | listClose {nodes done : List Node} {frames : List Frame} :
      t.kind = .listClose →
      Step options t ⟨nodes, .items done :: frames, .term⟩
        (deliver nodes frames (.list done.reverse))
  | tagOpen {nodes : List Node} {frames : List Frame} :
      t.kind = .tagOpen → frames.length < maxDepth →
      Step options t ⟨nodes, frames, .term⟩ ⟨nodes, frames, .tagName t.position⟩
  | tagName {nodes : List Node} {frames : List Frame} {position : Position} :
      t.kind = .identifier →
      Step options t ⟨nodes, frames, .tagName position⟩
        ⟨nodes, frames, .attributes ⟨t.text, position, []⟩⟩
  | attributeName {nodes : List Node} {frames : List Frame} {tag : OpenTag} :
      t.kind = .identifier →
      Step options t ⟨nodes, frames, .attributes tag⟩ ⟨nodes, frames, .attributeValue tag t.text⟩
  | equals {nodes : List Node} {frames : List Frame} {tag : OpenTag} {key : String} :
      t.kind = .equals →
      Step options t ⟨nodes, frames, .attributeValue tag key⟩
        ⟨nodes, .attribute tag key :: frames, .term⟩
  | selfClose {nodes : List Node} {frames : List Frame} {tag : OpenTag} :
      t.kind = .selfClose →
      Step options t ⟨nodes, frames, .attributes tag⟩ (deliver nodes frames (tag.node []))
  | tagClose {nodes : List Node} {frames : List Frame} {tag : OpenTag} :
      t.kind = .tagClose →
      Step options t ⟨nodes, frames, .attributes tag⟩ ⟨nodes, .children tag [] :: frames, .term⟩
  | closeOpen {nodes done : List Node} {frames : List Frame} {tag : OpenTag} :
      t.kind = .closeOpen →
      Step options t ⟨nodes, .children tag done :: frames, .term⟩
        ⟨nodes, frames, .closingName tag done t.position⟩
  | closingName {nodes done : List Node} {frames : List Frame} {tag : OpenTag}
      {closing : Position} :
      t.kind = .identifier →
      Step options t ⟨nodes, frames, .closingName tag done closing⟩
        ⟨nodes, frames, .closingEnd tag done closing t.text⟩
  | closingEnd {nodes done : List Node} {frames : List Frame} {tag : OpenTag}
      {closing : Position} {name : String} :
      t.kind = .tagClose → (options.strictTags = true → name = tag.name) →
      Step options t ⟨nodes, frames, .closingEnd tag done closing name⟩
        (deliver nodes frames (tag.node done.reverse))

variable {options : ParseOptions} {t : Token} {r r' : Reading}

theorem step_of_term {nodes : List Node} {frames : List Frame}
    (h : term nodes frames t = .ok r') : Step options t ⟨nodes, frames, .term⟩ r' := by
  unfold term at h
  split at h
  · next hkind =>
    obtain rfl := Except.ok.inj h
    exact .closeOpen hkind
  · next hkind =>
    obtain rfl := Except.ok.inj h
    exact .listClose hkind
  · next hkind =>
    split at h
    · next hdepth =>
      obtain rfl := Except.ok.inj h
      exact .tagOpen hkind hdepth
    · cases h
  · next hkind =>
    split at h
    · next hdepth =>
      obtain rfl := Except.ok.inj h
      exact .listOpen hkind hdepth
    · cases h
  · next hkind =>
    obtain rfl := Except.ok.inj h
    exact .string hkind
  · next hkind =>
    split at h
    · next hnode =>
      obtain rfl := Except.ok.inj h
      exact .identifier hkind hnode
    · cases h
  · cases h

theorem step_of_eq_ok (h : step options r t = .ok r') : Step options t r r' := by
  obtain ⟨nodes, frames, awaiting⟩ := r
  cases awaiting with
  | term => exact step_of_term h
  | tagName position =>
    simp only [step] at h
    split at h
    · next hkind =>
      obtain rfl := Except.ok.inj h
      exact .tagName hkind
    · cases h
  | attributes tag =>
    simp only [step] at h
    split at h
    · next hkind =>
      obtain rfl := Except.ok.inj h
      exact .attributeName hkind
    · next hkind =>
      obtain rfl := Except.ok.inj h
      exact .tagClose hkind
    · next hkind =>
      obtain rfl := Except.ok.inj h
      exact .selfClose hkind
    · cases h
  | attributeValue tag key =>
    simp only [step] at h
    split at h
    · next hkind =>
      obtain rfl := Except.ok.inj h
      exact .equals hkind
    · cases h
  | closingName tag children closing =>
    simp only [step] at h
    split at h
    · next hkind =>
      obtain rfl := Except.ok.inj h
      exact .closingName hkind
    · cases h
  | closingEnd tag children closing name =>
    simp only [step] at h
    split at h
    · next hkind =>
      split at h
      · cases h
      · next hname =>
        obtain rfl := Except.ok.inj h
        refine .closingEnd hkind fun hstrict => ?_
        simpa [hstrict] using hname
    · cases h

theorem Step.eq_ok (h : Step options t r r') : step options r t = .ok r' := by
  cases h with
  | string hkind => simp only [step, term, hkind]
  | identifier hkind hnode => simp only [step, term, hkind, hnode]
  | listOpen hkind hdepth => simp only [step, term, hkind, if_pos hdepth]
  | listClose hkind => simp only [step, term, hkind]
  | tagOpen hkind hdepth => simp only [step, term, hkind, if_pos hdepth]
  | tagName hkind => simp only [step, hkind]
  | attributeName hkind => simp only [step, hkind]
  | equals hkind => simp only [step, hkind]
  | selfClose hkind => simp only [step, hkind]
  | tagClose hkind => simp only [step, hkind]
  | closeOpen hkind => simp only [step, term, hkind]
  | closingName hkind => simp only [step, hkind]
  | @closingEnd _ _ _ tag _ name hkind hname =>
    have hmatch : ¬ (options.strictTags && name != tag.name) = true := by
      intro hne
      rw [Bool.and_eq_true, bne_iff_ne] at hne
      exact hne.2 (hname hne.1)
    simp only [step, hkind, if_neg hmatch]

/-- **The steps of the reader** are those of the list. -/
theorem step_eq_ok_iff : step options r t = .ok r' ↔ Step options t r r' :=
  ⟨step_of_eq_ok, Step.eq_ok⟩

/-! ## Runs -/

/-- Takes tokens one after the other. -/
def run (options : ParseOptions) (r : Reading) (tokens : List Token) : Except ParseError Reading :=
  tokens.foldlM (step options) r

theorem run_cons {ts : List Token} :
    run options r (t :: ts) = (step options r t >>= fun r => run options r ts) :=
  List.foldlM_cons

theorem run_append {ts us : List Token} :
    run options r (ts ++ us) = (run options r ts >>= fun r => run options r us) :=
  List.foldlM_append

theorem Step.run_cons {ts : List Token} (h : Step options t r r') :
    run options r (t :: ts) = run options r' ts := by
  rw [Reading.run_cons, h.eq_ok]
  rfl

theorem run_append_of_ok {ts us : List Token} (h : run options r ts = .ok r') :
    run options r (ts ++ us) = run options r' us := by
  rw [run_append, h]
  rfl

end Reading

theorem Node.ofTokens_eq (options : ParseOptions) (tokens : List Token) :
    Node.ofTokens options tokens =
      (Reading.run options Reading.start tokens >>= Reading.finish) := rfl

end TagLang

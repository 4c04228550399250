import Lisplet.Editor.Workspace
import Mathlib.Data.List.Induction

/-!
# Documents in step with their notifications

`notifyAll_documents`: after any row of notifications, a document is kept exactly if the last one about it
was not that it is closed; it has the last text that was brought since then, the index of that text, and the
diagnostics published last are those of the index. What a notification does to the documents is said once
(`find?_notify`); that text, index and diagnostics are in step with the notifications so far is kept by each
of them (`Workspace.Tracks`).
-/

namespace Lisplet.Editor

namespace Notification

/-- The document that a notification is about. -/
def uri : Notification → String
  | opened uri _ => uri
  | changed uri _ => uri
  | closed uri => uri

def isClose : Notification → Bool
  | closed _ => true
  | _ => false

/-- The texts that a notification brings, each of which is the whole document. -/
def texts : Notification → List (List Char)
  | opened _ text => [text]
  | changed _ texts => texts
  | closed _ => []

end Notification

/-- The notifications about a document, in the order in which they came. -/
def about (uri : String) (ns : List Notification) : List Notification := ns.filter (·.uri == uri)

/-- The notifications about a document since it was last closed. -/
def sinceClosed (uri : String) (ns : List Notification) : List Notification :=
  ((about uri ns).reverse.takeWhile (!·.isClose)).reverse

/-- The last text that is brought; it is empty where none is. -/
def lastText (ns : List Notification) : List Char := (ns.flatMap Notification.texts).getLast?.getD []

section
variable {uri : String} {ns : List Notification} {n : Notification}

theorem about_concat : about uri (ns ++ [n]) = if n.uri = uri then about uri ns ++ [n] else about uri ns := by
  by_cases hn : n.uri = uri <;> simp [about, hn]

theorem sinceClosed_concat :
    sinceClosed uri (ns ++ [n]) =
      if n.uri = uri then if n.isClose then [] else sinceClosed uri ns ++ [n] else sinceClosed uri ns := by
  rw [sinceClosed, about_concat]
  split
  · rw [List.reverse_concat, List.takeWhile_cons]
    cases n.isClose <;> simp [sinceClosed]
  · rfl

theorem sinceClosed_eq_nil : sinceClosed uri ns = [] ↔ ∀ n ∈ (about uri ns).getLast?, n.isClose := by
  rw [sinceClosed, List.reverse_eq_nil_iff, ← List.head?_reverse]
  cases (about uri ns).reverse with
  | nil => simp
  | cons n ns => cases hn : n.isClose <;> simp [hn]

theorem lastText_concat : lastText (ns ++ [n]) = n.texts.getLast?.getD (lastText ns) := by
  rw [lastText, List.flatMap_append, List.flatMap_singleton, List.getLast?_append, Option.getD_or]
  rfl

end

/-- A text with its index. -/
def Document.ofText (options : ReadOptions) (text : List Char) : Document := ⟨text, Index.build options text⟩

namespace Workspace

/-- The workspace after a row of notifications, with all that they publish. -/
def notifyAll (w : Workspace) (ns : List Notification) : Workspace × List Publication :=
  ns.foldl (fun (w, published) n => ((w.notify n).1, published ++ [(w.notify n).2])) (w, [])

section
variable (w : Workspace) (n : Notification) (uri : String)

/-- The text that a notification leaves: the last that it brings, else the one that is there. -/
def textAfter : List Char := n.texts.getLast?.getD (((w.documents.find? n.uri).map Document.text).getD [])

theorem notify_eq :
    w.notify n =
      if n.isClose then ({ w with documents := w.documents.erase n.uri }, ⟨n.uri, []⟩)
      else w.update n.uri (w.textAfter n) := by
  cases n with
  | opened | closed => rfl
  | changed uri texts =>
    have htext : w.changedText uri texts = w.textAfter (.changed uri texts) := by
      simp only [changedText, textAfter, Notification.texts, Notification.uri]
      cases texts.getLast? <;> rfl
    rw [notify, htext]
    rfl

@[simp] theorem options_notify : (w.notify n).1.options = w.options := by
  rw [notify_eq]
  split <;> rfl

theorem find?_notify :
    (w.notify n).1.documents.find? uri =
      if uri = n.uri then if n.isClose then none else some (.ofText w.options (w.textAfter n))
      else w.documents.find? uri := by
  rw [notify_eq]
  cases n.isClose <;> simp [update, Document.ofText]

theorem publication_notify :
    (w.notify n).2 =
      ⟨n.uri, if n.isClose then [] else Diagnostic.ofIndex (Document.ofText w.options (w.textAfter n)).index⟩ := by
  rw [notify_eq]
  cases n.isClose <;> rfl

end

theorem notifyAll_concat (w : Workspace) (ns : List Notification) (n : Notification) :
    w.notifyAll (ns ++ [n]) =
      (((w.notifyAll ns).1.notify n).1, (w.notifyAll ns).2 ++ [((w.notifyAll ns).1.notify n).2]) := by
  rw [notifyAll, List.foldl_append]
  rfl

/-- The document that notifications leave. -/
def leftBy (options : ReadOptions) (uri : String) (ns : List Notification) : Option Document :=
  if sinceClosed uri ns = [] then none else some (.ofText options (lastText (sinceClosed uri ns)))

theorem leftBy_concat_of_ne {options : ReadOptions} {uri : String} {ns : List Notification} {n : Notification}
    (hn : n.uri ≠ uri) : leftBy options uri (ns ++ [n]) = leftBy options uri ns := by
  rw [leftBy, leftBy, sinceClosed_concat, if_neg hn]

/-- A workspace and its publications are in step with the notifications that led there. -/
structure Tracks (options : ReadOptions) (ns : List Notification) (w : Workspace) (published : List Publication) :
    Prop where
  options_eq : w.options = options
  document : ∀ uri, w.documents.find? uri = leftBy options uri ns
  publication : ∀ uri, (published.filter (·.uri == uri)).getLast? =
    (about uri ns).getLast?.map fun _ => ⟨uri, ((leftBy options uri ns).map (Diagnostic.ofIndex ·.index)).getD []⟩

namespace Tracks

variable {options : ReadOptions} {ns : List Notification} {w : Workspace} {published : List Publication}

theorem textAfter (h : w.Tracks options ns published) (n : Notification) :
    w.textAfter n = lastText (sinceClosed n.uri ns ++ [n]) := by
  rw [Workspace.textAfter, h.document, lastText_concat, leftBy]
  split
  · rename_i hnil
    rw [hnil]
    rfl
  · rfl

/-- What a notification leaves of its own document, by the notifications so far. -/
theorem leftBy_concat (h : w.Tracks options ns published) (n : Notification) :
    leftBy options n.uri (ns ++ [n]) = if n.isClose then none else some (.ofText w.options (w.textAfter n)) := by
  rw [leftBy, sinceClosed_concat, if_pos rfl, h.textAfter, h.options_eq]
  cases n.isClose <;> simp

theorem notify (h : w.Tracks options ns published) (n : Notification) :
    (w.notify n).1.Tracks options (ns ++ [n]) (published ++ [(w.notify n).2]) where
  options_eq := by rw [options_notify, h.options_eq]
  document uri := by
    rw [find?_notify]
    split
    · rename_i huri
      rw [huri, h.leftBy_concat]
    · rename_i huri
      rw [h.document, leftBy_concat_of_ne (Ne.symm huri)]
  publication uri := by
    rw [List.filter_append, publication_notify, about_concat]
    by_cases huri : n.uri = uri
    · subst huri
      rw [h.leftBy_concat]
      cases n.isClose <;> simp
    · rw [leftBy_concat_of_ne huri]
      simpa [huri] using h.publication uri

end Tracks

theorem tracks_notifyAll (options : ReadOptions) (ns : List Notification) :
    ((empty options).notifyAll ns).1.Tracks options ns ((empty options).notifyAll ns).2 := by
  induction ns using List.reverseRecOn with
  | nil => exact ⟨rfl, fun _ => rfl, fun _ => rfl⟩
  | append_singleton ns n ih =>
    rw [notifyAll_concat]
    exact ih.notify n

/-- After any row of notifications, the text, index and published diagnostics of each document are in step. -/
theorem notifyAll_documents (options : ReadOptions) (ns : List Notification) (uri : String) :
    let w := ((empty options).notifyAll ns).1
    let published := ((empty options).notifyAll ns).2.filter (·.uri == uri)
    ((w.documents.find? uri).isSome ↔ ∃ n ∈ (about uri ns).getLast?, n.isClose = false) ∧
    (∀ d ∈ w.documents.find? uri,
      d.text = lastText (sinceClosed uri ns) ∧ d.index = Index.build options d.text) ∧
    published.getLast? = (about uri ns).getLast?.map (fun _ =>
      ⟨uri, ((w.documents.find? uri).map (Diagnostic.ofIndex ·.index)).getD []⟩) ∧
    ∀ n, n.uri ≠ uri → (w.notify n).1.documents.find? uri = w.documents.find? uri ∧ (w.notify n).2.uri ≠ uri := by
  intro w published
  have h := tracks_notifyAll options ns
  have hdocument : w.documents.find? uri = leftBy options uri ns := h.document uri
  refine ⟨?_, ?_, ?_, fun n hn => ⟨?_, ?_⟩⟩
  · rw [hdocument, leftBy]
    split
    · rename_i hnil
      simpa using fun n hn => sinceClosed_eq_nil.1 hnil n hn
    · rename_i hne
      simpa [sinceClosed_eq_nil] using hne
  · intro d hd
    rw [hdocument, leftBy] at hd
    split at hd
    · cases hd
    · cases hd
      exact ⟨rfl, rfl⟩
  · rw [hdocument]
    exact h.publication uri
  · rw [find?_notify, if_neg (Ne.symm hn)]
  · rw [publication_notify]
    exact hn

/-- A document that is changed before it is opened, closed, then changed without a text, beside another one. -/
theorem notifyAll_documents_reopened :
    let options : ReadOptions := ⟨true, 0⟩
    let ns := [.changed "a" ["(".toList], .closed "a", .opened "b" ")".toList, .changed "a" []]
    let w := ((empty options).notifyAll ns).1
    lastText (sinceClosed "a" ns) = [] ∧
    (∃ d, w.documents.find? "a" = some d ∧ d.text = [] ∧ d.index = Index.build options []) ∧
    (w.notify (.closed "b")).1.documents.find? "a" = w.documents.find? "a" := by
  intro options ns w
  obtain ⟨hstored, hkept, -, hothers⟩ := notifyAll_documents options ns "a"
  obtain ⟨d, hd⟩ := Option.isSome_iff_exists.1 (hstored.2 ⟨.changed "a" [], rfl, rfl⟩)
  obtain ⟨htext, hindex⟩ := hkept d hd
  have hlast : lastText (sinceClosed "a" ns) = [] := by decide
  rw [hlast] at htext
  exact ⟨hlast, ⟨d, hd, htext, htext ▸ hindex⟩, (hothers (.closed "b") (by decide)).1⟩

end Workspace

end Lisplet.Editor

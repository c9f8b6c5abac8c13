/-
**The vocabulary of accessible roles and states.**

The names that an accessibility bridge reports in its `en_US` locale.  The two lists are advisory:
a tree may carry any other name, and queries match names as plain text.

Main definitions:

* `AccessQuery.Role`, `AccessQuery.State` — the known roles and states, in alphabetical order;
* `AccessQuery.Role.ofName?`, `AccessQuery.State.ofName?` — recognising a name.

Main results:

* `AccessQuery.Role.ofName?_eq_some_iff`, `AccessQuery.State.ofName?_eq_some_iff` — a name is
  recognised exactly as the role or state that is spelled so.
-/

set_option relaxedAutoImplicit false
set_option autoImplicit false

namespace AccessQuery

/-! ### Roles -/

/-- The known roles of a user interface element. -/
inductive Role
  | alert | awtComponent | canvas | checkBox | colorChooser | columnHeader | comboBox | dateEditor
  | desktopIcon | desktopPane | dialog | directoryPane | editBar | fileChooser | filler
  | fontChooser | footer | frame | glassPane | header | htmlContainer | hyperlink | icon
  | internalFrame | label | layeredPane | list | listItem | menu | menuBar | menuItem | optionPane
  | pageTab | pageTabList | panel | paragraph | passwordText | popupMenu | progressBar
  | pushButton | radioButton | rootPane | rowHeader | ruler | scrollBar | scrollPane | separator
  | slider | spinBox | splitPane | statusBar | swingComponent | table | text | toggleButton
  | toolBar | toolTip | tree | unknown | viewport | window
  deriving DecidableEq, Repr

namespace Role

/-- The name of a role. -/
def name : Role → String
  | .alert => "alert"
  | .awtComponent => "awt component"
  | .canvas => "canvas"
  | .checkBox => "check box"
  | .colorChooser => "color chooser"
  | .columnHeader => "column header"
  | .comboBox => "combo box"
  | .dateEditor => "date editor"
  | .desktopIcon => "desktop icon"
  | .desktopPane => "desktop pane"
  | .dialog => "dialog"
  | .directoryPane => "directory pane"
  | .editBar => "editbar"
  | .fileChooser => "file chooser"
  | .filler => "filler"
  | .fontChooser => "font chooser"
  | .footer => "footer"
  | .frame => "frame"
  | .glassPane => "glass pane"
  | .header => "header"
  | .htmlContainer => "html container"
  | .hyperlink => "hyperlink"
  | .icon => "icon"
  | .internalFrame => "internal frame"
  | .label => "label"
  | .layeredPane => "layered pane"
  | .list => "list"
  | .listItem => "list item"
  | .menu => "menu"
  | .menuBar => "menu bar"
  | .menuItem => "menu item"
  | .optionPane => "option pane"
  | .pageTab => "page tab"
  | .pageTabList => "page tab list"
  | .panel => "panel"
  | .paragraph => "paragraph"
  | .passwordText => "password text"
  | .popupMenu => "popup menu"
  | .progressBar => "progress bar"
  | .pushButton => "push button"
  | .radioButton => "radio button"
  | .rootPane => "root pane"
  | .rowHeader => "row header"
  | .ruler => "ruler"
  | .scrollBar => "scroll bar"
  | .scrollPane => "scroll pane"
  | .separator => "separator"
  | .slider => "slider"
  | .spinBox => "spinbox"
  | .splitPane => "split pane"
  | .statusBar => "status bar"
  | .swingComponent => "swing component"
  | .table => "table"
  | .text => "text"
  | .toggleButton => "toggle button"
  | .toolBar => "tool bar"
  | .toolTip => "tool tip"
  | .tree => "tree"
  | .unknown => "unknown"
  | .viewport => "viewport"
  | .window => "window"

/-- Every known role. -/
def all : List Role :=
  [.alert, .awtComponent, .canvas, .checkBox, .colorChooser, .columnHeader, .comboBox,
   .dateEditor, .desktopIcon, .desktopPane, .dialog, .directoryPane, .editBar, .fileChooser,
   .filler, .fontChooser, .footer, .frame, .glassPane, .header, .htmlContainer, .hyperlink, .icon,
   .internalFrame, .label, .layeredPane, .list, .listItem, .menu, .menuBar, .menuItem,
   .optionPane, .pageTab, .pageTabList, .panel, .paragraph, .passwordText, .popupMenu,
   .progressBar, .pushButton, .radioButton, .rootPane, .rowHeader, .ruler, .scrollBar,
   .scrollPane, .separator, .slider, .spinBox, .splitPane, .statusBar, .swingComponent, .table,
   .text, .toggleButton, .toolBar, .toolTip, .tree, .unknown, .viewport, .window]

/-- The role with a given name. -/
def ofName? (s : String) : Option Role :=
  all.find? fun role => role.name == s

theorem mem_all (role : Role) : role ∈ all := by
  cases role <;> decide

theorem name_injective {a b : Role} (h : a.name = b.name) : a = b := by
  have key : ∀ a ∈ all, ∀ b ∈ all, a.name = b.name → a = b := by decide +kernel
  exact key a (mem_all a) b (mem_all b) h

theorem ofName?_eq_some_iff {s : String} {role : Role} :
    ofName? s = some role ↔ role.name = s := by
  constructor
  · intro h
    simpa using List.find?_some h
  · rintro rfl
    cases h : ofName? role.name with
    | none => simpa using List.find?_eq_none.1 h role (mem_all role)
    | some other =>
        have : other.name = role.name := by simpa using List.find?_some h
        rw [name_injective this]

end Role

/-! ### States -/

/-- The known states of a user interface element. -/
inductive State
  | active | armed | busy | checked | collapsed | editable | enabled | expandable | expanded
  | focusable | focused | horizontal | iconified | indeterminate | modal | multiLine
  | multiSelectable | nonTransparent | pressed | resizable | selectable | selected | showing
  | singleLine | transient | vertical | visible
  deriving DecidableEq, Repr

namespace State

/-- The name of a state. -/
def name : State → String
  | .active => "active"
  | .armed => "armed"
  | .busy => "busy"
  | .checked => "checked"
  | .collapsed => "collapsed"
  | .editable => "editable"
  | .enabled => "enabled"
  | .expandable => "expandable"
  | .expanded => "expanded"
  | .focusable => "focusable"
  | .focused => "focused"
  | .horizontal => "horizontal"
  | .iconified => "iconified"
  | .indeterminate => "indeterminate"
  | .modal => "modal"
  | .multiLine => "multi_line"
  | .multiSelectable => "multiselectable"
  | .nonTransparent => "opaque"
  | .pressed => "pressed"
  | .resizable => "resizable"
  | .selectable => "selectable"
  | .selected => "selected"
  | .showing => "showing"
  | .singleLine => "single_line"
  | .transient => "transient"
  | .vertical => "vertical"
  | .visible => "visible"

/-- Every known state. -/
def all : List State :=
  [.active, .armed, .busy, .checked, .collapsed, .editable, .enabled, .expandable, .expanded,
   .focusable, .focused, .horizontal, .iconified, .indeterminate, .modal, .multiLine,
   .multiSelectable, .nonTransparent, .pressed, .resizable, .selectable, .selected, .showing,
   .singleLine, .transient, .vertical, .visible]

/-- The state with a given name. -/
def ofName? (s : String) : Option State :=
  all.find? fun state => state.name == s

theorem mem_all (state : State) : state ∈ all := by
  cases state <;> decide

theorem name_injective {a b : State} (h : a.name = b.name) : a = b := by
  have key : ∀ a ∈ all, ∀ b ∈ all, a.name = b.name → a = b := by decide +kernel
  exact key a (mem_all a) b (mem_all b) h

theorem ofName?_eq_some_iff {s : String} {state : State} :
    ofName? s = some state ↔ state.name = s := by
  constructor
  · intro h
    simpa using List.find?_some h
  · rintro rfl
    cases h : ofName? state.name with
    | none => simpa using List.find?_eq_none.1 h state (mem_all state)
    | some other =>
        have : other.name = state.name := by simpa using List.find?_some h
        rw [name_injective this]

end State

end AccessQuery

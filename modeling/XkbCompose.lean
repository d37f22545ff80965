import XkbCompose.Table
import XkbCompose.Trie
import XkbCompose.AddProduction
import XkbCompose.Invariant
import XkbCompose.Edits
import XkbCompose.Insert
import XkbCompose.RefMap
import XkbCompose.Build
import XkbCompose.State
import XkbCompose.Refinement
import XkbCompose.Scanner
import XkbCompose.Lex
import XkbCompose.Parse
import XkbCompose.Lines
import XkbCompose.Files
import XkbCompose.Typing

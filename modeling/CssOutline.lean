import CssOutline.Host.Session
import CssOutline.View.Listing
import CssOutline.View.Margin
import CssOutline.Proofs.Outline.Nesting
import CssOutline.Proofs.Outline.Beginning
import CssOutline.Proofs.Host.Report
import CssOutline.Proofs.LineIndex
import CssOutline.Proofs.Outline.Lines
import CssOutline.Proofs.Outline.Moved
import CssOutline.Proofs.Host.Kept
import CssOutline.Proofs.ImportStatement.Surroundings
import CssOutline.Proofs.Outline.Joined
import CssOutline.Proofs.Outline.Respelled
import CssOutline.Proofs.Lookup
import CssOutline.Proofs.Outline.Parts
import CssOutline.Proofs.ImportStatement.LoneReturns
import CssOutline.Proofs.Outline.LoneReturns
import CssOutline.Proofs.Lookup.Respelled
import CssOutline.Proofs.Outline.Stages
import CssOutline.Proofs.ImportStatement.Preferred
import CssOutline.Proofs.Outline.Framed
import CssOutline.Proofs.Outline.Wrapped
import CssOutline.Proofs.Text.Blanked
import CssOutline.Proofs.Token.Commented
import CssOutline.Proofs.Prelude.Blanked
import CssOutline.Proofs.Outline.Blanked
import CssOutline.Proofs.Forest.Insertion
import CssOutline.Proofs.RuleTree.Walk
import CssOutline.Proofs.LineIndex.Lines
import CssOutline.Proofs.RuleTree.Insertion
import CssOutline.Proofs.View.Margin
import CssOutline.Proofs.Forest.Levels
import CssOutline.Proofs.View.Listing
import CssOutline.Proofs.Selector.NormalForm
import CssOutline.Proofs.LineIndex.Scan
import CssOutline.Proofs.Lookup.WholeTree
import CssOutline.Proofs.Token.Longest
import CssOutline.Proofs.Outline.Recorded

import NamedLambda.Main
import NamedLambda.Term.Conversion
import NamedLambda.Term.Nameless
import NamedLambda.Typing.Context
import NamedLambda.Proofs.NamelessSubstitution
import NamedLambda.Proofs.TypeValuation
import NamedLambda.Proofs.TypingSubstitution
import NamedLambda.Proofs.MostGeneralUnifier
import NamedLambda.Proofs.InferenceRun
import NamedLambda.Proofs.InferenceVariables
import NamedLambda.Proofs.InferenceSoundness
import NamedLambda.Proofs.PrincipalTypes
import NamedLambda.Proofs.NamelessReduction
import NamedLambda.Proofs.Confluence
import NamedLambda.Proofs.NormalOrder
import NamedLambda.Proofs.SubjectReduction
import NamedLambda.Proofs.StrongNormalization
import NamedLambda.Proofs.AlphaReduction
import NamedLambda.Proofs.CanonicalTypes
import NamedLambda.Proofs.LetExpansion
import NamedLambda.Proofs.SchemeCapture
import NamedLambda.Proofs.FreshTypeVariables
import NamedLambda.Proofs.AlphaRenaming
import NamedLambda.Proofs.Fingerprint
import NamedLambda.Proofs.IteratedContraction
import NamedLambda.Proofs.EtaConversion
import NamedLambda.Proofs.BetaEtaNormalForms
import NamedLambda.Proofs.TypeRenumbering
import NamedLambda.Proofs.AlphaInference
import NamedLambda.Proofs.RelevantBindings
import NamedLambda.Proofs.BinderRenaming
import NamedLambda.Proofs.Definitions
import NamedLambda.Proofs.NamelessText
import NamedLambda.Proofs.ChurchArithmetic
import NamedLambda.Proofs.RedexSearch
import NamedLambda.Proofs.ExactRenaming
import NamedLambda.Proofs.IssuedBinders
import NamedLambda.Proofs.ContractionFrame
import NamedLambda.Proofs.EtaNormalForms
import NamedLambda.Proofs.ResumedRuns
import NamedLambda.Proofs.FreeNames
import NamedLambda.Proofs.FreeOccurrences
import NamedLambda.Proofs.NamedText
import NamedLambda.Proofs.TypeEquivalence
import NamedLambda.Proofs.SubtermSpans
import NamedLambda.Proofs.TypeErrors
import NamedLambda.Proofs.TypeText
import NamedLambda.Proofs.NumeralTypes
import NamedLambda.Proofs.CombinatorEquations
import NamedLambda.Proofs.DrawnTerms
import NamedLambda.Proofs.NameResolution
import NamedLambda.Proofs.SubstitutionRecursion
import NamedLambda.Proofs.UnificationRecursion
import NamedLambda.Proofs.SettledAnswers
import NamedLambda.Proofs.SettingsText
